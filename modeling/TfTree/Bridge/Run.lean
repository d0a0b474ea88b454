import TfTree.Bridge.Ingest
import TfTree.Ring.Carry

/-!
# Runs of the bridge

Any sequence of calls of `offer`, `note_time_jump` and `close_startup_window`. A run has
a result as long as no call panics.

Results:
* `Ingest.Ok.run`: what holds after any run.
* `published_in_order`: between two new arenas the samples published on an edge do
  not go back in time, so that the ring takes all of them; a refused sample moves no
  mark, except that a new arena starts without marks.
* `conflicts_reported_iff`: the conflicts are reported, and every call returns, as long
  as no more than `maxTrackedPublishers` publishers took part in them.
-/

namespace TfTree.Bridge

open Data Conc

variable {F : Type}

/-! ## Calls -/

/-- A call of the bridge. -/
inductive Call (F : Type) where
  | offer (topic : Topic) (sample : Sample F) (publisher : Publisher)
  | noteTimeJump (deltaNanos : ℤ) (kind : JumpKind)
  | closeStartupWindow

/-- A call and what was answered. -/
abbrev Event (F : Type) := Call F × Option (Action F)

/-- The samples that reached the authority: the arrivals, without those that were
    answered by the close of the startup window. -/
def arrivals (tfPrefix : Option String) (kindOf : String × String → Option StaticKind)
    (trace : List (Event F)) : List Arrival :=
  trace.filterMap fun e =>
    match e.1 with
    | .offer topic sample publisher =>
      if e.2.any Action.isStartupHalt then none
      else arrivalIn tfPrefix kindOf topic sample publisher
    | _ => none

/-- The actions of a trace. -/
def actions (trace : List (Event F)) : List (Action F) := trace.filterMap Prod.snd

/-- The stamps published on an edge, in order. -/
def publishedOn (e : String × String) (as : List (Action F)) : List ℤ :=
  as.filterMap fun a => a.published.bind fun p => if p.1 = e then some p.2 else none

namespace Ingest

variable [Floats F]

/-- One call. -/
def call (s : Ingest F) : Call F → Option (Option (Action F) × Ingest F)
  | .offer topic sample publisher => do
    let (a, s) ← s.offer topic sample publisher
    return (some a, s)
  | .noteTimeJump deltaNanos kind =>
    let (a, s) := s.noteTimeJump deltaNanos kind
    some (some a, s)
  | .closeStartupWindow => s.closeStartupWindow

/-- A sequence of calls, with what was answered. -/
def run (s : Ingest F) : List (Call F) → Option (List (Event F) × Ingest F)
  | [] => some ([], s)
  | c :: cs => do
    let (a, s) ← s.call c
    let (trace, s) ← s.run cs
    return ((c, a) :: trace, s)

variable {s s' : Ingest F} {c : Call F} {o : Option (Action F)}

/-- What a call does, whatever it answers. -/
structure Step (s : Ingest F) (c : Call F) (o : Option (Action F)) (s' : Ingest F) : Prop where
  ok : s'.Ok
  fixed : s.Fixed s'
  silent : o = none → s'.marks = s.marks
  clocks : ∀ a, o = some a → ClockEffect s.keys s.clock.onReset s.marks s'.marks a
  unasked : arrivals s.names.tfPrefix s.statics.kindOf [(c, o)] = [] → s'.authority = s.authority
  asked : ∀ e p, arrivals s.names.tfPrefix s.statics.kindOf [(c, o)] = [(e, p)] →
    ∃ slot v, s.keys[slot]? = some e ∧ s.authority.admitAt slot p = some (v, s'.authority)

omit [Floats F] in
/-- The close of the startup window changes nothing else. -/
theorem closeStartupWindow_eq (h : s.closeStartupWindow = some (o, s')) :
    s' = { s with startupWindowOpen := false } ∧ ∀ a, o = some a → a.isStartupHalt = true := by
  have hclosed : s.startupWindowOpen = false → s = { s with startupWindowOpen := false } := by
    intro h
    rw [← h]
  unfold Ingest.closeStartupWindow at h
  by_cases hopen : s.startupWindowOpen = true
  · rw [if_pos hopen] at h
    by_cases hpol : s.authority.policy ≠ .strict
    · rw [if_pos hpol] at h
      cases h
      exact ⟨rfl, fun a ha => by cases ha⟩
    · rw [if_neg hpol] at h
      obtain ⟨rows, -, h⟩ := Option.bind_eq_some_iff.mp h
      obtain ⟨edges, -, h⟩ := Option.bind_eq_some_iff.mp h
      dsimp only at h
      split_ifs at h
      · cases h
        exact ⟨rfl, fun a ha => by cases ha⟩
      · cases h
        exact ⟨rfl, fun a ha => by cases ha; rfl⟩
  · rw [if_neg hopen] at h
    cases h
    exact ⟨hclosed (by simpa using hopen), fun a ha => by cases ha⟩

omit [Floats F] in
/-- The close of the startup window panics only on the report of the conflicts. -/
theorem Ok.closeStartupWindow_returns (hs : s.Ok)
    (h : s.startupWindowOpen = true → s.authority.policy = .strict →
      ∃ rows, s.authority.conflicts = some rows) :
    ∃ o, s.closeStartupWindow = some (o, { s with startupWindowOpen := false }) := by
  suffices hsome : ∃ r, s.closeStartupWindow = some r by
    obtain ⟨⟨o, s'⟩, hr⟩ := hsome
    obtain ⟨rfl, -⟩ := closeStartupWindow_eq hr
    exact ⟨o, hr⟩
  unfold Ingest.closeStartupWindow
  by_cases hopen : s.startupWindowOpen = true
  · rw [if_pos hopen]
    dsimp only
    by_cases hpol : s.authority.policy = .strict
    · rw [if_neg (not_not.mpr hpol)]
      obtain ⟨rows, hrows⟩ := h hopen hpol
      obtain ⟨edges, hedges⟩ := hs.statics.conflictsByEdge
      simp only [Option.bind_eq_bind, hrows, hedges, Option.bind_some]
      split_ifs <;> exact ⟨_, rfl⟩
    · rw [if_pos hpol]
      exact ⟨_, rfl⟩
  · rw [if_neg hopen]
    exact ⟨_, rfl⟩

omit [Floats F] in
theorem Ok.withWindow (hs : s.Ok) (b : Bool) :
    ({ s with startupWindowOpen := b } : Ingest F).Ok :=
  ⟨hs.statics, hs.authority, hs.slots, hs.clocks, hs.offsets, hs.raw, hs.cached⟩

omit [Floats F] in
theorem arrivals_offer {tfPrefix : Option String} {kindOf : String × String → Option StaticKind}
    {topic : Topic} {sample : Sample F} {publisher : Publisher} {a : Action F} :
    arrivals tfPrefix kindOf [(.offer topic sample publisher, some a)] =
      if a.isStartupHalt = true then []
      else (arrivalIn tfPrefix kindOf topic sample publisher).toList := by
  by_cases h : a.isStartupHalt = true
  · simp [arrivals, h]
  · cases ha : arrivalIn tfPrefix kindOf topic sample publisher <;> simp [arrivals, h, ha]

omit [Floats F] in
/-- A sample that was counted. -/
theorem Outcome.step {topic : Topic} {sample : Sample F} {publisher : Publisher} {a : Action F}
    (h : s.Outcome (arrivalIn s.names.tfPrefix s.statics.kindOf topic sample publisher) a s') :
    s.Step (.offer topic sample publisher) (some a) s' := by
  have harr : arrivals s.names.tfPrefix s.statics.kindOf
      [(.offer topic sample publisher, some a)] =
        (arrivalIn s.names.tfPrefix s.statics.kindOf topic sample publisher).toList := by
    rw [arrivals_offer, if_neg (by rw [h.counted]; simp)]
  refine ⟨h.ok, h.fixed, fun hn => by (cases hn), fun a' ha => ?_, fun hn => ?_,
    fun e p he => ?_⟩
  · cases ha
    exact h.clocks
  · rw [harr] at hn
    exact h.unasked (Option.toList_eq_nil_iff.mp hn)
  · rw [harr] at he
    refine h.asked e p ?_
    cases harrival : arrivalIn s.names.tfPrefix s.statics.kindOf topic sample publisher with
    | none => rw [harrival] at he; cases he
    | some x =>
      rw [harrival] at he
      cases he
      rfl

omit [Floats F] in
/-- The window closes in front of the call. -/
theorem Step.behind_window (h : Ingest.Step { s with startupWindowOpen := false } c o s') :
    s.Step c o s' :=
  ⟨h.ok, ⟨h.fixed.index, h.fixed.kinds, h.fixed.tfPrefix, h.fixed.clock, h.fixed.policy⟩, h.silent,
    h.clocks, h.unasked, h.asked⟩

omit [Floats F] in
/-- The close of the startup window as a step. -/
theorem Ok.step_close (hs : s.Ok) (harr : arrivals s.names.tfPrefix s.statics.kindOf [(c, o)] = [])
    (h : s.closeStartupWindow = some (o, s')) : s.Step c o s' := by
  obtain ⟨rfl, hhalt⟩ := closeStartupWindow_eq h
  refine ⟨hs.withWindow _, ⟨rfl, rfl, rfl, rfl, rfl⟩, fun _ => rfl, fun a ha => ?_, fun _ => rfl,
    fun e p he => ?_⟩
  · have h := hhalt a ha
    refine .kept ?_ ?_ rfl
    · cases a <;> first | rfl | (unfold Action.isStartupHalt at h; cases h)
    · cases a <;> first | rfl | (unfold Action.isStartupHalt at h; cases h)
  · rw [harr] at he
    cases he

/-- **Step lemma.** What a call that returns does. -/
theorem Ok.step (hs : s.Ok) (h : s.call c = some (o, s')) : s.Step c o s' := by
  cases c with
  | offer topic sample publisher =>
    obtain ⟨⟨a, s₁⟩, hoffer, hret⟩ := Option.bind_eq_some_iff.mp h
    cases hret
    unfold Ingest.offer at hoffer
    by_cases hwin : s.startupWindowOpen = true ∧ s.stats.transforms ≥ startupWindowTransforms
    · rw [if_pos hwin] at hoffer
      obtain ⟨⟨halt, s₂⟩, hclose, hrest⟩ := Option.bind_eq_some_iff.mp hoffer
      cases halt with
      | some halt =>
        cases hrest
        have hh := (closeStartupWindow_eq hclose).2 a rfl
        exact hs.step_close (by rw [arrivals_offer, if_pos hh]) hclose
      | none =>
        obtain ⟨rfl, -⟩ := closeStartupWindow_eq hclose
        obtain ⟨a', s'', hrun, hout⟩ := (hs.withWindow false).offerCounted topic sample publisher
        change Ingest.offerCounted { s with startupWindowOpen := false } topic sample publisher =
          some (a, s') at hrest
        rw [hrun] at hrest
        cases hrest
        exact hout.step.behind_window
    · rw [if_neg hwin] at hoffer
      obtain ⟨a', s'', hrun, hout⟩ := hs.offerCounted topic sample publisher
      rw [hrun] at hoffer
      cases hoffer
      exact hout.step
  | noteTimeJump deltaNanos kind =>
    cases h
    have hout := hs.applyClockReset deltaNanos (.reported kind)
    exact ⟨hout.ok, hout.fixed, fun h => by (cases h), fun a ha => by (cases ha; exact hout.clocks),
      fun _ => hout.unasked rfl, fun e p he => by cases he⟩
  | closeStartupWindow => exact hs.step_close rfl h

/-- A call returns, unless the close of the startup window panics. -/
theorem Ok.call_returns (hs : s.Ok)
    (h : s.startupWindowOpen = true → s.authority.policy = .strict →
      ∃ rows, s.authority.conflicts = some rows) (c : Call F) :
    ∃ r, s.call c = some r := by
  obtain ⟨o, hclose⟩ := hs.closeStartupWindow_returns h
  cases c with
  | closeStartupWindow => exact ⟨_, hclose⟩
  | noteTimeJump deltaNanos kind => exact ⟨_, rfl⟩
  | offer topic sample publisher =>
    suffices hoffer : ∃ r, s.offer topic sample publisher = some r by
      obtain ⟨r, hr⟩ := hoffer
      refine ⟨(some r.1, r.2), ?_⟩
      show ((s.offer topic sample publisher).bind fun r => some (some r.1, r.2)) = _
      rw [hr]
      rfl
    unfold Ingest.offer
    by_cases hwin : s.startupWindowOpen = true ∧ s.stats.transforms ≥ startupWindowTransforms
    · rw [if_pos hwin, hclose]
      cases o with
      | some halt => exact ⟨_, rfl⟩
      | none =>
        obtain ⟨a, s', hrun, -⟩ := (hs.withWindow false).offerCounted topic sample publisher
        exact ⟨_, hrun⟩
    · rw [if_neg hwin]
      obtain ⟨a, s', hrun, -⟩ := hs.offerCounted topic sample publisher
      exact ⟨_, hrun⟩

end Ingest

/-! ## The marks over a run -/

/-- The marks before and after a sequence of actions. -/
inductive MarkRun (keys : List (String × String)) (onReset : OnClockReset) :
    List (Option ℤ) → List (Action F) → List (Option ℤ) → Prop where
  | nil (marks) : MarkRun keys onReset marks [] marks
  | cons {marks marks' marks''} {a : Action F} {as : List (Action F)}
      (effect : ClockEffect keys onReset marks marks' a)
      (rest : MarkRun keys onReset marks' as marks'') :
      MarkRun keys onReset marks (a :: as) marks''

section Marks

variable {keys : List (String × String)} {onReset : OnClockReset}
  {marks marks' : List (Option ℤ)} {as bs : List (Action F)} {a : Action F} {e : String × String}

theorem ClockEffect.length_eq (h : ClockEffect keys onReset marks marks' a) :
    marks'.length = marks.length := by
  cases h with
  | kept _ _ same => rw [same]
  | forgot _ _ _ none => rw [none, List.length_map]
  | moved slot e t _ _ _ _ mark => rw [mark, List.length_set]

theorem MarkRun.append_inv (h : MarkRun keys onReset marks (as ++ bs) marks') :
    ∃ mid, MarkRun keys onReset marks as mid ∧ MarkRun keys onReset mid bs marks' ∧
      mid.length = marks.length := by
  induction as generalizing marks with
  | nil => exact ⟨marks, .nil marks, h, rfl⟩
  | cons a as ih =>
    cases h with
    | cons effect rest =>
      obtain ⟨mid, h₁, h₂, hlen⟩ := ih rest
      exact ⟨mid, .cons effect h₁, h₂, hlen.trans effect.length_eq⟩

theorem publishedOn_cons_of_none (h : a.published = none) :
    publishedOn e (a :: as) = publishedOn e as := by
  simp [publishedOn, h]

theorem publishedOn_cons {e' : String × String} {t : ℤ} (h : a.published = some (e', t)) :
    publishedOn e (a :: as) = if e' = e then t :: publishedOn e as else publishedOn e as := by
  by_cases he : e' = e <;> simp [publishedOn, h, he]

/-- Without a new arena, what is published on an edge starts at its mark and does not go
    back. -/
theorem MarkRun.stamps_in_order (h : MarkRun keys onReset marks as marks') (hnd : keys.Nodup)
    (hlen : marks.length = keys.length) (hno : ∀ a ∈ as, a.isRecreate = false) :
    (publishedOn e as).Pairwise (· ≤ ·) ∧ ∀ (slot : ℕ) (newest : ℤ), keys[slot]? = some e →
      marks[slot]? = some (some newest) → ∀ t ∈ publishedOn e as, newest ≤ t := by
  induction h with
  | nil => exact ⟨.nil, fun _ _ _ _ t ht => by cases ht⟩
  | @cons marks marks₁ _ a as effect _ ih =>
    obtain ⟨hpair, hmark⟩ := ih (effect.length_eq.trans hlen) fun b hb =>
      hno b (List.mem_cons_of_mem _ hb)
    cases effect with
    | kept published recreate same =>
      subst same
      rw [publishedOn_cons_of_none published]
      exact ⟨hpair, hmark⟩
    | forgot published recreate policy none =>
      rw [hno a List.mem_cons_self] at recreate
      cases recreate
    | moved slot e' t published recreate at_slot forward mark =>
      have hlt : slot < marks.length := by
        rw [hlen]
        exact (List.getElem?_eq_some_iff.mp at_slot).1
      rw [publishedOn_cons published]
      by_cases he : e' = e
      · subst he
        rw [if_pos rfl]
        -- the mark is the stamp now
        have hrest : ∀ t' ∈ publishedOn e' as, t ≤ t' := by
          refine hmark slot t at_slot ?_
          rw [mark, List.getElem?_set_self hlt]
        refine ⟨List.pairwise_cons.mpr ⟨hrest, hpair⟩, fun slot' newest hslot' hnew t' ht' => ?_⟩
        obtain rfl : slot' = slot := (List.getElem?_inj (List.getElem?_eq_some_iff.mp hslot').1
          hnd).mp (hslot'.trans at_slot.symm)
        have hle := forward newest hnew
        rcases List.mem_cons.mp ht' with rfl | ht'
        · exact hle
        · exact hle.trans (hrest t' ht')
      · rw [if_neg he]
        refine ⟨hpair, fun slot' newest hslot' hnew t' ht' => ?_⟩
        have hne : slot ≠ slot' := by
          rintro rfl
          rw [at_slot] at hslot'
          exact he (Option.some_inj.mp hslot')
        refine hmark slot' newest hslot' ?_ t' ht'
        rw [mark, List.getElem?_set_ne hne]
        exact hnew

end Marks

/-! ## What holds after a run -/

namespace Ingest

variable [Floats F] {s s' s₁ s₂ : Ingest F} {calls : List (Call F)} {trace : List (Event F)}

omit [Floats F] in
theorem arrivals_cons (tfPrefix : Option String) (kindOf : String × String → Option StaticKind)
    (x : Event F) (trace : List (Event F)) :
    arrivals tfPrefix kindOf (x :: trace) =
      arrivals tfPrefix kindOf [x] ++ arrivals tfPrefix kindOf trace :=
  List.filterMap_append (l := [x])

omit [Floats F] in
theorem Fixed.kindOf (h : s₁.Fixed s₂) : s₂.statics.kindOf = s₁.statics.kindOf := by
  unfold StaticStore.kindOf
  rw [h.index, h.kinds]

/-- **Run lemma.** After any run the tables are in order, the marks have followed the
    actions, and the authority has decided on the arrivals. -/
theorem Ok.run (hs : s.Ok) (h : s.run calls = some (trace, s')) :
    s'.Ok ∧ s.Fixed s' ∧ MarkRun s.keys s.clock.onReset s.marks (actions trace) s'.marks ∧
      ∀ hist, s.authority.Traced hist →
        s'.authority.Traced (hist ++ arrivals s.names.tfPrefix s.statics.kindOf trace) := by
  induction calls generalizing s trace with
  | nil =>
    cases h
    exact ⟨hs, .refl _, .nil _, fun hist ht => by simpa [arrivals] using ht⟩
  | cons c cs ih =>
    obtain ⟨⟨o, s₁⟩, hcall, h⟩ := Option.bind_eq_some_iff.mp h
    obtain ⟨⟨rest, s₂⟩, hrest, h⟩ := Option.bind_eq_some_iff.mp h
    cases h
    have hstep := hs.step hcall
    obtain ⟨hok, hfix, hmarks, htraced⟩ := ih hstep.ok hrest
    refine ⟨hok, hstep.fixed.trans hfix, ?_, fun hist ht => ?_⟩
    · rw [hstep.fixed.keys, hstep.fixed.clock] at hmarks
      cases o with
      | none =>
        rw [hstep.silent rfl] at hmarks
        exact hmarks
      | some a => exact .cons (hstep.clocks a rfl) hmarks
    · rw [hstep.fixed.tfPrefix, hstep.fixed.kindOf] at htraced
      rw [arrivals_cons, ← List.append_assoc]
      apply htraced
      cases harr : arrivals s.names.tfPrefix s.statics.kindOf [(c, o)] with
      | nil =>
        rw [hstep.unasked harr, List.append_nil]
        exact ht
      | cons x xs =>
        -- one call makes one arrival at most
        obtain rfl : xs = [] := by
          have hlen := List.length_filterMap_le (l := [(c, o)]) (f := fun e : Event F =>
            match e.1 with
            | .offer topic sample publisher =>
              if e.2.any Action.isStartupHalt then none
              else arrivalIn s.names.tfPrefix s.statics.kindOf topic sample publisher
            | _ => none)
          have hlen' : (arrivals s.names.tfPrefix s.statics.kindOf [(c, o)]).length ≤ 1 := hlen
          rw [harr, List.length_cons] at hlen'
          exact List.eq_nil_of_length_eq_zero (by omega)
        obtain ⟨slot, v, hslot, hadm⟩ := hstep.asked x.1 x.2 harr
        rw [← hs.slots] at hslot
        obtain ⟨v', a', hadm', htr, -⟩ := ht.admitAt hslot x.2
        rw [hadm] at hadm'
        cases hadm'
        exact htr

/-- The calls of `calls` on a new pipeline. -/
def runFrom (config : TopologyConfig F) (policy : AuthorityPolicy) (clock : ClockPolicy F)
    (tfPrefix : Option String) (calls : List (Call F)) : Option (List (Event F) × Ingest F) := do
  let s ← withPolicies config policy clock tfPrefix
  s.run calls

variable {config : TopologyConfig F} {policy : AuthorityPolicy} {clock : ClockPolicy F}
  {tfPrefix : Option String}

/-- What holds after any run of a new pipeline. -/
theorem runFrom_spec (h : runFrom config policy clock tfPrefix calls = some (trace, s)) :
    s.Ok ∧ s.clock = clock ∧ s.authority.policy = policy ∧ (∃ marks, marks.length = s.keys.length ∧
      MarkRun s.keys clock.onReset marks (actions trace) s.marks) ∧
      (policy ≠ .lastWriterWins →
        s.authority.Traced (arrivals s.names.tfPrefix s.statics.kindOf trace)) := by
  obtain ⟨s₀, hs₀, hok, hpol, hseed, -, -, -, hmarks⟩ :=
    withPolicies_ok config policy clock tfPrefix
  have hclock : s₀.clock = clock := by
    unfold withPolicies at hs₀
    obtain ⟨statics, -, hs₀⟩ := Option.bind_eq_some_iff.mp hs₀
    obtain ⟨authority, -, hs₀⟩ := Option.bind_eq_some_iff.mp hs₀
    cases hs₀
    rfl
  obtain ⟨s₁, hs₁, hrun⟩ := Option.bind_eq_some_iff.mp h
  obtain rfl : s₀ = s₁ := Option.some_inj.mp (hs₀.symm.trans hs₁)
  obtain ⟨hok', hfix, hmark, htraced⟩ := hok.run hrun
  refine ⟨hok', hfix.clock.trans hclock, hfix.policy.trans hpol, ⟨s₀.marks, ?_, ?_⟩, fun hp => ?_⟩
  · rw [hmarks, List.length_replicate, hfix.keys]
  · rw [hfix.keys, ← hclock]
    exact hmark
  · rw [hfix.tfPrefix, hfix.kindOf]
    exact htraced [] (Authority.traced_seeded hp hseed)

end Ingest

/-! ## Published samples are in order -/

section Order

variable [Floats F] {config : TopologyConfig F} {policy : AuthorityPolicy} {clock : ClockPolicy F}
  {tfPrefix : Option String} {calls : List (Call F)} {trace : List (Event F)} {s : Ingest F}

/-- **Main theorem.** In any run, between two new arenas, the samples published on an edge
    do not go back in time, so that an empty ring takes all of them. A sample that is
    refused moves no mark; only if the answer is to build the arena anew, which needs
    the policy for it, all marks are forgotten. -/
theorem published_in_order
    (h : Ingest.runFrom config policy clock tfPrefix calls = some (trace, s)) :
    (∀ pre mid post, actions trace = pre ++ mid ++ post → (∀ a ∈ mid, a.isRecreate = false) →
      ∀ e, (publishedOn e mid).Pairwise (· ≤ ·) ∧
        ∀ (r : SampleRing F) (m : RingArena F) (zs : List (ℤ × Iso3 F)), r.PowerOfTwo →
          (m r.edge).head = 0 → (m r.edge).published = [] → zs.map Prod.fst = publishedOn e mid →
          ∃ m', (r.pushUntilRefused zs).run RingOp.exec m = some (.ok (), m')) ∧
    ∀ topic sample publisher a s', s.offer topic sample publisher = some (a, s') →
      a.published = none →
      if a.isRecreate = true then clock.onReset = .recreate ∧ ∀ mark ∈ s'.marks, mark = none
      else s'.marks = s.marks := by
  obtain ⟨hok, hclock, -, ⟨marks, hlen, hmarks⟩, -⟩ := Ingest.runFrom_spec h
  constructor
  · intro pre mid post hsplit hno e
    rw [hsplit, List.append_assoc] at hmarks
    obtain ⟨marks₁, -, hrest, hlen₁⟩ := hmarks.append_inv
    obtain ⟨marks₂, hmid, -, -⟩ := hrest.append_inv
    have hsorted := (hmid.stamps_in_order (e := e) hok.statics.index.ok.table.nodup
      (hlen₁.trans hlen) hno).1
    refine ⟨hsorted, fun r m zs hp hhead hpub hzs => ?_⟩
    rw [← hzs, List.pairwise_map] at hsorted
    obtain ⟨m', hrun, -⟩ := (SampleRing.Newest.of_empty hhead hpub).pushUntilRefused hp
      (by rw [List.nil_append]; exact hsorted)
    exact ⟨m', hrun⟩
  · intro topic sample publisher a s' hoffer hnone
    have hcall : s.call (.offer topic sample publisher) = some (some a, s') := by
      show ((s.offer topic sample publisher).bind fun r => some (some r.1, r.2)) = _
      rw [hoffer]
      rfl
    cases (hok.step hcall).clocks a rfl with
    | kept published recreate same =>
      rw [if_neg (by rw [recreate]; simp)]
      exact same
    | forgot published recreate policy none =>
      rw [if_pos recreate]
      refine ⟨hclock ▸ policy, fun mark hmark => ?_⟩
      rw [none] at hmark
      obtain ⟨_, -, rfl⟩ := List.mem_map.mp hmark
      rfl
    | moved slot e t published recreate at_slot forward mark =>
      rw [hnone] at published
      cases published

end Order

/-- A clock policy for examples: steps of half a second, seen within a second. -/
def exampleClock (onReset : OnClockReset) : ClockPolicy Hundredths :=
  ⟨500000000, 1000000000, 0, 50000000, onReset⟩

/-- Two edges, each with its publisher, and the first publisher's clock steps back. -/
def twoClocks : Option (List (Event Hundredths) × Ingest Hundredths) :=
  Ingest.runFrom
    { edges := [⟨"odom", "base", .dynamic (.slots 64), none, none⟩,
        ⟨"map", "odom", .dynamic (.slots 64), none, none⟩] }
    .firstWriterWins (exampleClock .recreate) none
    [.offer .tf ⟨"odom", "base", 100000000000, 100000000000, .replicate 7 0⟩ (.topic "wheels"),
      .offer .tf ⟨"map", "odom", 100000000000, 100000000000, .replicate 7 0⟩ (.topic "amcl"),
      .offer .tf ⟨"odom", "base", 100200000000, 100200000000, .replicate 7 0⟩ (.topic "wheels"),
      .offer .tf ⟨"odom", "base", 91000000000, 101000000000, .replicate 7 0⟩ (.topic "wheels")]

set_option maxRecDepth 20000 in
theorem twoClocks_some : ∃ r, twoClocks = some r :=
  Option.isSome_iff_exists.mp (by decide)

set_option maxRecDepth 20000 in
/-- Two samples of the first publisher are published, and its next one is refused. -/
theorem published_in_order_two_clocks :
    ∃ trace s a s', twoClocks = some (trace, s) ∧
      publishedOn ("odom", "base") (actions trace) = [100000000000, 100200000000] ∧
      (publishedOn ("odom", "base") (actions trace)).Pairwise (· ≤ ·) ∧
      (∀ zs : List (ℤ × Iso3 Hundredths), zs.map Prod.fst = [100000000000, 100200000000] →
        ∃ m', ((⟨0, 4⟩ : SampleRing Hundredths).pushUntilRefused zs).run RingOp.exec emptyArena =
          some (.ok (), m')) ∧
      s.offer .tf ⟨"odom", "base", 92000000000, 102000000000, .replicate 7 0⟩ (.topic "wheels") =
        some (a, s') ∧ a.published = none ∧ s'.marks = s.marks := by
  obtain ⟨⟨trace, s⟩, hrun⟩ := twoClocks_some
  have hout : (twoClocks.bind fun r =>
      (r.2.offer .tf ⟨"odom", "base", 92000000000, 102000000000, .replicate 7 0⟩
        (.topic "wheels")).map fun r' => (publishedOn ("odom", "base") (actions r.1),
          (actions r.1).all fun a => !a.isRecreate, r'.1.published.isNone, r'.1.isRecreate)) =
      some ([100000000000, 100200000000], true, true, false) := by
    decide
  rw [hrun] at hout
  obtain ⟨⟨a, s'⟩, hoffer, heq⟩ := Option.map_eq_some_iff.mp hout
  simp only [Prod.mk.injEq] at heq
  obtain ⟨hpublished, hno, hnone, hkept⟩ := heq
  obtain ⟨horder, hmarks⟩ := published_in_order hrun
  obtain ⟨hsorted, hring⟩ := horder [] (actions trace) [] (by simp)
    (fun a ha => by simpa using List.all_eq_true.mp hno a ha) ("odom", "base")
  have hnone := Option.isNone_iff_eq_none.mp hnone
  refine ⟨trace, s, a, s', hrun, hpublished, hsorted, fun zs hzs => ?_, hoffer, hnone, ?_⟩
  · exact hring ⟨0, 4⟩ emptyArena zs ⟨2, rfl⟩ rfl rfl (hzs.trans hpublished.symm)
  · have hsame := hmarks _ _ _ _ _ hoffer hnone
    rwa [if_neg (by simp [hkept])] at hsame

set_option maxRecDepth 20000 in
/-- The second publisher's clock steps back as well: its sample is refused, and the
    marks are gone. -/
theorem refused_sample_forgets_marks :
    ∃ trace s a s', twoClocks = some (trace, s) ∧
      s.offer .tf ⟨"map", "odom", 91000000000, 101000000000, .replicate 7 0⟩ (.topic "amcl") =
        some (a, s') ∧ a.published = none ∧ s'.marks ≠ s.marks := by
  have hrun : (twoClocks.bind fun r =>
      (r.2.offer .tf ⟨"map", "odom", 91000000000, 101000000000, .replicate 7 0⟩
        (.topic "amcl")).map fun r' => (r'.1.published, r.2.marks, r'.2.marks)) =
      some (none, [some 100200000000, some 100000000000], [none, none]) := by
    decide
  obtain ⟨⟨trace, s⟩, hs, hrest⟩ := Option.bind_eq_some_iff.mp hrun
  obtain ⟨⟨a, s'⟩, hoffer, heq⟩ := Option.map_eq_some_iff.mp hrest
  simp only [Prod.mk.injEq] at heq
  refine ⟨trace, s, a, s', hs, hoffer, heq.1, ?_⟩
  rw [heq.2.1, heq.2.2]
  decide

/-! ## The conflicts are reported -/

namespace Authority

/-- A sequence of samples that reach the authority alone. -/
def admitAll (a : Authority) : List Arrival → Option Authority
  | [] => some a
  | ((parent, child), publisher) :: hist => do
    let (_, a) ← a.admitEdge parent child publisher
    a.admitAll hist

/-- The conflicts of a history are reported: the counts add up to the dropped samples,
    and a row counts the collisions of its publishers on its edge, of which there is one. -/
def ConflictsReported (a : Authority) (hist : List Arrival) : Prop :=
  ∃ rows, a.conflicts = some rows ∧ (rows.map ConflictRow.count).sum = a.dropped ∧
    ∀ r ∈ rows, 0 < r.count ∧ r.count = (collisions hist).countP fun c => r.Reports c

variable {a : Authority} {past : List Arrival}

/-- Every sequence of samples is decided. -/
theorem Traced.admitAll (ht : a.Traced past) (hist : List Arrival) :
    ∃ a', a.admitAll hist = some a' ∧ a'.Traced (past ++ hist) := by
  induction hist generalizing a past with
  | nil => exact ⟨a, rfl, by rw [List.append_nil]; exact ht⟩
  | cons x hist ih =>
    obtain ⟨v, a₁, hadm, ht₁⟩ := ht.admitEdge x.1 x.2
    obtain ⟨a', hrest, ht'⟩ := ih ht₁
    refine ⟨a', ?_, by rw [List.append_cons]; exact ht'⟩
    show ((a.admitEdge x.1.1 x.1.2 x.2).bind fun r => r.2.admitAll hist) = _
    rw [hadm]
    exact hrest

theorem Traced.conflictsReported_iff (ht : a.Traced past) :
    a.ConflictsReported past ↔ (parties past).length ≤ maxTrackedPublishers := by
  rw [← ht.complete_iff]
  constructor
  · rintro ⟨rows, hrows, -⟩
    exact ht.conflicts_isSome_iff.mp ⟨rows, hrows⟩
  · exact ht.conflicts

end Authority

section Conflicts

variable [Floats F]

/-- **Main theorem.** Under a policy that refuses intruders, the conflicts of any sequence of
    samples are reported exactly if at most `maxTrackedPublishers` publishers took part in
    them; and after any run of the pipeline they are reported, and the startup window can be
    closed, exactly if that holds of the samples that reached the authority. Every
    other call returns then too. -/
theorem conflicts_reported_iff {policy : AuthorityPolicy} (hp : policy ≠ .lastWriterWins) :
    (∀ hist, ∃ a, (Authority.new policy).admitAll hist = some a ∧
      (a.ConflictsReported hist ↔ (parties hist).length ≤ maxTrackedPublishers)) ∧
    ∀ (config : TopologyConfig F) clock tfPrefix calls trace s,
      Ingest.runFrom config policy clock tfPrefix calls = some (trace, s) →
      ((s.authority.ConflictsReported (arrivals s.names.tfPrefix s.statics.kindOf trace) ∧
          ∃ r, s.closeStartupWindow = some r) ↔
        (parties (arrivals s.names.tfPrefix s.statics.kindOf trace)).length ≤
          maxTrackedPublishers) ∧
      ((parties (arrivals s.names.tfPrefix s.statics.kindOf trace)).length ≤
        maxTrackedPublishers → ∀ c, ∃ r, s.call c = some r) := by
  constructor
  · intro hist
    have hseed : Authority.seeded policy ({} : TopologyConfig F) = some (.new policy) := rfl
    obtain ⟨a, hrun, ht⟩ := (Authority.traced_seeded hp hseed).admitAll hist
    exact ⟨a, hrun, ht.conflictsReported_iff⟩
  · intro config clock tfPrefix calls trace s h
    obtain ⟨hok, -, -, -, htraced⟩ := Ingest.runFrom_spec h
    have ht := htraced hp
    have hreturns : (parties (arrivals s.names.tfPrefix s.statics.kindOf trace)).length ≤
        maxTrackedPublishers → s.startupWindowOpen = true → s.authority.policy = .strict →
        ∃ rows, s.authority.conflicts = some rows := by
      intro hle _ _
      exact ht.conflicts_isSome_iff.mpr (ht.complete_iff.mpr hle)
    refine ⟨⟨fun hc => ht.conflictsReported_iff.mp hc.1, fun hle => ?_⟩, fun hle c => ?_⟩
    · obtain ⟨o, hclose⟩ := hok.closeStartupWindow_returns (hreturns hle)
      exact ⟨ht.conflictsReported_iff.mpr hle, _, hclose⟩
    · exact hok.call_returns (hreturns hle) c

end Conflicts

/-- One edge, and `n` publishers that offer after its owner. -/
def crowd (n : ℕ) : Option (List (Event Hundredths) × Ingest Hundredths) :=
  Ingest.runFrom { edges := [⟨"odom", "base", .dynamic (.slots 64), none, none⟩] }
    .strict (exampleClock .halt) none
    ((List.range (n + 1)).map fun k => .offer .tf ⟨"odom", "base", 1, 0, .replicate 7 0⟩
      (.topic (String.ofList (List.replicate k 'p'))))

set_option maxRecDepth 20000 in
theorem conflicts_reported_crowd :
    ∃ trace s, crowd 2 = some (trace, s) ∧
      s.authority.ConflictsReported (arrivals s.names.tfPrefix s.statics.kindOf trace) := by
  obtain ⟨⟨trace, s⟩, hrun⟩ : ∃ r, crowd 2 = some r :=
    Option.isSome_iff_exists.mp (by decide)
  have hle : ((crowd 2).map fun r =>
      decide ((parties (arrivals r.2.names.tfPrefix r.2.statics.kindOf r.1)).length ≤
        maxTrackedPublishers)) = some true := by
    decide
  rw [hrun] at hle
  refine ⟨trace, s, hrun, (((conflicts_reported_iff (by decide)).2 _ _ _ _ _ _ hrun).1.mpr ?_).1⟩
  exact of_decide_eq_true (Option.some_inj.mp hle)

/-- With one publisher more than are tracked, the conflicts cannot be listed, and the
    close of the startup window panics. -/
theorem crowd_panics :
    ∃ trace s, crowd maxTrackedPublishers = some (trace, s) ∧ s.authority.conflicts = none ∧
      s.closeStartupWindow = none := by
  have hrun : ((crowd maxTrackedPublishers).map fun r =>
      (r.2.authority.conflicts.isNone, r.2.closeStartupWindow.isNone)) = some (true, true) := by
    decide +kernel
  obtain ⟨⟨trace, s⟩, hs, heq⟩ := Option.map_eq_some_iff.mp hrun
  simp only [Prod.mk.injEq, Option.isNone_iff_eq_none] at heq
  exact ⟨trace, s, hs, heq.1, heq.2⟩

end TfTree.Bridge
