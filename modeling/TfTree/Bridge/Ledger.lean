import Mathlib
import TfTree.Bridge.Run

/-!
# The counters of the bridge

`stats.rs` of `tf_tree_bridge`: every transform that is counted is in one bucket.

Results:
* `Ingest.offerCounted_stats`: the action of a transform says what was counted for it.
* `Ingest.run_stats`: after any run the counters are those of its trace.
* `stats_balanced`: so they are balanced, and a halt at the close of the startup window
  counts nothing.
-/

namespace TfTree.Bridge

variable {F : Type}

/-! ## Model of `stats.rs` -/

namespace BridgeStats

/-- `BridgeStats::balanced` (lines 41–50). -/
def balanced (s : BridgeStats) : Bool :=
  s.applied + s.staticVerified + s.droppedAuthority + s.droppedNonMonotonic + s.droppedBadName +
    s.droppedKindChange + s.droppedUndeclared == s.transforms

/-- The counters of two ledgers together. -/
def plus (s t : BridgeStats) : BridgeStats where
  transforms := s.transforms + t.transforms
  applied := s.applied + t.applied
  staticVerified := s.staticVerified + t.staticVerified
  droppedAuthority := s.droppedAuthority + t.droppedAuthority
  droppedNonMonotonic := s.droppedNonMonotonic + t.droppedNonMonotonic
  droppedBadName := s.droppedBadName + t.droppedBadName
  droppedKindChange := s.droppedKindChange + t.droppedKindChange
  droppedUndeclared := s.droppedUndeclared + t.droppedUndeclared
  clockResets := s.clockResets + t.clockResets
  staticConflicts := s.staticConflicts + t.staticConflicts

theorem plus_assoc (s t u : BridgeStats) : (s.plus t).plus u = s.plus (t.plus u) := by
  simp [plus, Nat.add_assoc]

@[simp] theorem empty_plus (s : BridgeStats) : plus {} s = s := by simp [plus]

theorem balanced_plus {s t : BridgeStats} (hs : s.balanced = true) (ht : t.balanced = true) :
    (s.plus t).balanced = true := by
  unfold balanced at hs ht ⊢
  rw [beq_iff_eq] at hs ht ⊢
  simp only [BridgeStats.plus]
  omega

end BridgeStats

/-! ## The ledger of a trace -/

/-- Kinds of actions. A clock event was either inferred from samples or reported by the
    time source. -/
inductive Kind where
  | publish
  | staticVerified
  | undeclaredEdge
  | authorityConflict
  | staticConflict
  | badName
  | nonMonotonic
  | kindChange
  | authorityHalt
  | startupHalt
  | clockHalt (inferred : Bool)
  | recreate (inferred : Bool)
  deriving DecidableEq, Repr

/-- Whether a clock event was inferred. -/
def ClockEvidence.inferred : ClockEvidence → Bool
  | .reported _ => false
  | .commonMode _ => true

/-- The kind of an action. -/
def Action.kind : Action F → Kind
  | .publish .. => .publish
  | .staticVerified .. => .staticVerified
  | .undeclaredEdge .. => .undeclaredEdge
  | .authorityConflict .. => .authorityConflict
  | .staticConflict .. => .staticConflict
  | .drop .badName => .badName
  | .drop (.nonMonotonic _) => .nonMonotonic
  | .drop .kindChange => .kindChange
  | .halt (.authorityConflict ..) => .authorityHalt
  | .halt (.clockReset _ evidence) => .clockHalt evidence.inferred
  | .halt (.startupConflicts ..) => .startupHalt
  | .recreateArena _ evidence => .recreate evidence.inferred

/-- How many of the actions are of a kind. -/
def ofKind (as : List (Action F)) (k : Kind) : ℕ := (as.map Action.kind).count k

/-- What the actions stand for in the counters, `transforms` apart. -/
def chargesOf (as : List (Action F)) : BridgeStats where
  applied := ofKind as .publish
  staticVerified := ofKind as .staticVerified
  droppedAuthority := ofKind as .authorityConflict + ofKind as .staticConflict
  droppedNonMonotonic :=
    ofKind as .nonMonotonic + (ofKind as (.clockHalt true) + ofKind as (.recreate true))
  droppedBadName := ofKind as .badName
  droppedKindChange := ofKind as .kindChange
  droppedUndeclared := ofKind as .undeclaredEdge
  clockResets := (ofKind as (.clockHalt true) + ofKind as (.clockHalt false)) +
    (ofKind as (.recreate true) + ofKind as (.recreate false))
  staticConflicts := ofKind as .staticConflict

/-- The event is of a transform that was counted: a sample not answered by the close of
    the startup window. -/
def countedEvent (e : Event F) : Bool :=
  match e.1 with
  | .offer .. => !e.2.any Action.isStartupHalt
  | _ => false

/-- The counters of a trace. -/
def ledger (trace : List (Event F)) : BridgeStats :=
  { chargesOf (actions trace) with transforms := trace.countP countedEvent }

variable {as bs : List (Action F)} {trace : List (Event F)}

theorem chargesOf_append : chargesOf (as ++ bs) = (chargesOf as).plus (chargesOf bs) := by
  simp [chargesOf, BridgeStats.plus, ofKind, Nat.add_assoc, Nat.add_left_comm]

theorem ledger_cons (e : Event F) : ledger (e :: trace) = (ledger [e]).plus (ledger trace) := by
  have hactions : actions (e :: trace) = actions [e] ++ actions trace :=
    List.filterMap_append (l := [e])
  have hcount : (e :: trace).countP countedEvent =
      [e].countP countedEvent + trace.countP countedEvent := by
    rw [← List.countP_append]
    rfl
  unfold ledger
  rw [hactions, chargesOf_append, hcount]
  rfl

theorem actions_singleton (c : Call F) (o : Option (Action F)) : actions [(c, o)] = o.toList := by
  cases o <;> rfl

theorem chargesOf_startupHalt {a : Action F} (h : a.isStartupHalt = true) : chargesOf [a] = {} := by
  unfold Action.isStartupHalt at h
  split at h
  · rfl
  · cases h

/-! ## What a call books -/

namespace Ingest

variable {s s' : Ingest F} {a : Action F} {o : Option (Action F)} {c : Call F}

/-- What was counted between two states of a transform is what its action stands for, and
    that is one bucket. -/
def Booked (s : Ingest F) (a : Action F) (s' : Ingest F) : Prop :=
  s'.stats = s.stats.plus (chargesOf [a]) ∧
    BridgeStats.balanced { chargesOf [a] with transforms := 1 } = true

/-- A clock event that was reported is counted as such, and in no bucket. -/
theorem noteTimeJump_stats {deltaNanos : ℤ} {kind : JumpKind}
    (h : s.noteTimeJump deltaNanos kind = (a, s')) :
    s'.stats = s.stats.plus (chargesOf [a]) ∧ (chargesOf [a]).balanced = true := by
  unfold noteTimeJump applyClockReset at h
  dsimp only at h
  cases hpol : s.clock.onReset with
  | halt =>
    rw [hpol] at h
    cases h
    exact ⟨rfl, rfl⟩
  | recreate =>
    rw [hpol] at h
    cases h
    exact ⟨rfl, rfl⟩

/-- A clock event that was inferred: the transform on which it was is dropped. -/
theorem applyClockReset_stats {deltaNanos : ℤ} {publishers : ℕ}
    (h : applyClockReset { s with stats := { s.stats with
      droppedNonMonotonic := s.stats.droppedNonMonotonic + 1 } } deltaNanos
        (.commonMode publishers) = (a, s')) : s.Booked a s' := by
  unfold applyClockReset at h
  dsimp only at h
  cases hpol : s.clock.onReset with
  | halt =>
    rw [hpol] at h
    cases h
    exact ⟨rfl, rfl⟩
  | recreate =>
    rw [hpol] at h
    cases h
    exact ⟨rfl, rfl⟩

theorem noteUndeclared_stats (s : Ingest F) (parent child : String) :
    s.Booked (s.noteUndeclared parent child).1 (s.noteUndeclared parent child).2 := ⟨rfl, rfl⟩

variable [Floats F] {topic : Topic} {slot : ℕ} {sample : Sample F} {publisher : Publisher}

theorem offerStatic_stats (h : s.offerStatic slot sample publisher = some (a, s')) :
    s.Booked a s' := by
  unfold offerStatic at h
  obtain ⟨⟨verdict, statics⟩, -, h⟩ := Option.bind_eq_some_iff.mp h
  cases verdict with
  | declare =>
    obtain ⟨e, -, h⟩ := Option.bind_eq_some_iff.mp h
    cases h
    exact ⟨rfl, rfl⟩
  | idempotent =>
    obtain ⟨e, -, h⟩ := Option.bind_eq_some_iff.mp h
    cases h
    exact ⟨rfl, rfl⟩
  | kindChanged declared =>
    cases h
    exact ⟨rfl, rfl⟩
  | conflict owner intruder existing offered firstTime =>
    -- booked as a conflict of authority too
    obtain ⟨e, -, h⟩ := Option.bind_eq_some_iff.mp h
    cases h
    exact ⟨rfl, rfl⟩

theorem offerClock_stats (h : s.offerClock slot sample publisher = some (a, s')) :
    s.Booked a s' := by
  unfold offerClock at h
  obtain ⟨⟨common, offsets⟩, -, h⟩ := Option.bind_eq_some_iff.mp h
  cases common with
  | some common =>
    exact applyClockReset_stats (s := { s with offsets := offsets }) (Option.some_inj.mp h)
  | none =>
    obtain ⟨guard, -, h⟩ := Option.bind_eq_some_iff.mp h
    generalize guard.observe sample.stampNanos = r at h
    obtain ⟨verdict, guard'⟩ := r
    obtain ⟨clocks, -, h⟩ := Option.bind_eq_some_iff.mp h
    cases verdict with
    | forward =>
      obtain ⟨e, -, h⟩ := Option.bind_eq_some_iff.mp h
      cases h
      exact ⟨rfl, rfl⟩
    | jitter byNanos =>
      cases h
      exact ⟨rfl, rfl⟩
    | reset byNanos policy =>
      cases h
      exact ⟨rfl, rfl⟩

theorem offerDynamic_stats (h : s.offerDynamic slot sample publisher = some (a, s')) :
    s.Booked a s' := by
  unfold offerDynamic at h
  obtain ⟨e, -, h⟩ := Option.bind_eq_some_iff.mp h
  obtain ⟨⟨verdict, authority⟩, -, h⟩ := Option.bind_eq_some_iff.mp h
  cases verdict with
  | accept => exact offerClock_stats (s := { s with authority := authority }) h
  | reject owner intruder firstTime =>
    cases h
    exact ⟨rfl, rfl⟩
  | fatal owner intruder firstTime =>
    cases h
    exact ⟨rfl, rfl⟩

theorem offerDeclared_stats (h : s.offerDeclared topic slot sample publisher = some (a, s')) :
    s.Booked a s' := by
  unfold offerDeclared at h
  obtain ⟨kind, -, h⟩ := Option.bind_eq_some_iff.mp h
  cases topic with
  | tfStatic => exact offerStatic_stats h
  | tf =>
    dsimp only at h
    by_cases hk : kind = .static
    · rw [if_pos hk] at h
      cases h
      exact ⟨rfl, rfl⟩
    · rw [if_neg hk] at h
      exact offerDynamic_stats h

omit [Floats F] in
/-- Names are resolved in the normalizer and the table of spellings alone. -/
theorem resolve_frame {r : Resolved} (h : s.resolve sample = some (r, s')) :
    ∃ names raw, s' = { s with names := names, raw := raw } := by
  unfold resolve at h
  obtain ⟨hit, -, h⟩ := Option.bind_eq_some_iff.mp h
  cases hit with
  | some slot =>
    cases h
    exact ⟨_, _, rfl⟩
  | none =>
    dsimp only at h
    split at h
    · obtain ⟨found, -, h⟩ := Option.bind_eq_some_iff.mp h
      cases found with
      | some slot =>
        obtain ⟨raw, -, h⟩ := Option.bind_eq_some_iff.mp h
        cases h
        exact ⟨_, _, rfl⟩
      | none =>
        cases h
        exact ⟨_, _, rfl⟩
    · cases h
      exact ⟨_, _, rfl⟩

/-- The action of a transform says what was counted for it. -/
theorem offerCounted_stats (h : s.offerCounted topic sample publisher = some (a, s')) :
    s'.stats = s.stats.plus { chargesOf [a] with transforms := 1 } ∧
      BridgeStats.balanced { chargesOf [a] with transforms := 1 } = true := by
  suffices hbooked : Booked
      { s with stats := { s.stats with transforms := s.stats.transforms + 1 } } a s' from hbooked
  unfold offerCounted at h
  obtain ⟨⟨resolved, s₁⟩, hres, h⟩ := Option.bind_eq_some_iff.mp h
  obtain ⟨names, raw, hframe⟩ := resolve_frame hres
  have hstats : s₁.stats = { s.stats with transforms := s.stats.transforms + 1 } := by rw [hframe]
  have hback : s₁.Booked a s' → Booked
      { s with stats := { s.stats with transforms := s.stats.transforms + 1 } } a s' := by
    intro hb
    unfold Booked at hb ⊢
    rw [← hstats]
    exact hb
  cases resolved with
  | declared slot => exact hback (offerDeclared_stats h)
  | undeclared parent child =>
    cases h
    exact hback (noteUndeclared_stats s₁ parent child)
  | badName =>
    cases h
    exact hback ⟨rfl, rfl⟩

omit [Floats F] in
/-- The close of the startup window counts nothing. -/
theorem closeStartupWindow_stats (h : s.closeStartupWindow = some (o, s')) :
    s'.stats = s.stats ∧ chargesOf o.toList = {} := by
  obtain ⟨rfl, hhalt⟩ := closeStartupWindow_eq h
  refine ⟨rfl, ?_⟩
  cases o with
  | none => rfl
  | some a => exact chargesOf_startupHalt (hhalt a rfl)

/-- A transform that was counted, as an event. -/
theorem offerCounted_ledger (h : s.offerCounted topic sample publisher = some (a, s')) :
    s'.stats = s.stats.plus (ledger [(.offer topic sample publisher, some a)]) ∧
      (ledger [(.offer topic sample publisher, some a)]).balanced = true := by
  obtain ⟨hstats, hbal⟩ := offerCounted_stats h
  have hcounted : countedEvent ((.offer topic sample publisher, some a) : Event F) = true := by
    by_contra hnot
    have hhalt : a.isStartupHalt = true := by
      simpa [countedEvent] using hnot
    rw [chargesOf_startupHalt hhalt] at hbal
    cases hbal
  have hledger : ledger [((.offer topic sample publisher, some a) : Event F)] =
      { chargesOf [a] with transforms := 1 } := by
    unfold ledger
    rw [List.countP_singleton, hcounted]
    rfl
  rw [hledger]
  exact ⟨hstats, hbal⟩

omit [Floats F] in
/-- The close of the startup window, as an event that is not a counted transform. -/
theorem closeStartupWindow_ledger (h : s.closeStartupWindow = some (o, s'))
    (hc : countedEvent (c, o) = false) :
    s'.stats = s.stats.plus (ledger [(c, o)]) ∧ (ledger [(c, o)]).balanced = true := by
  obtain ⟨hstats, hnone⟩ := closeStartupWindow_stats h
  have hempty : ledger [(c, o)] = {} := by
    unfold ledger
    rw [List.countP_singleton, hc, actions_singleton, hnone]
    rfl
  rw [hempty, hstats]
  exact ⟨rfl, rfl⟩

/-- **Step lemma.** What a call counts is what its event stands for, and as many buckets
    as transforms. -/
theorem call_stats (h : s.call c = some (o, s')) :
    s'.stats = s.stats.plus (ledger [(c, o)]) ∧ (ledger [(c, o)]).balanced = true := by
  cases c with
  | closeStartupWindow => exact closeStartupWindow_ledger h rfl
  | noteTimeJump deltaNanos kind =>
    have hstats := noteTimeJump_stats (rfl : s.noteTimeJump deltaNanos kind = (_, _))
    cases h
    exact hstats
  | offer topic sample publisher =>
    obtain ⟨⟨a, s₁⟩, hoffer, hret⟩ := Option.bind_eq_some_iff.mp h
    cases hret
    unfold Ingest.offer at hoffer
    by_cases hwin : s.startupWindowOpen = true ∧ s.stats.transforms ≥ startupWindowTransforms
    · rw [if_pos hwin] at hoffer
      obtain ⟨⟨halt, s₂⟩, hclose, hrest⟩ := Option.bind_eq_some_iff.mp hoffer
      cases halt with
      | some halt =>
        cases hrest
        have hhalt := (closeStartupWindow_eq hclose).2 a rfl
        exact closeStartupWindow_ledger hclose (by simp [countedEvent, hhalt])
      | none =>
        have hstats := (closeStartupWindow_stats hclose).1
        rw [← hstats]
        exact offerCounted_ledger hrest
    · rw [if_neg hwin] at hoffer
      exact offerCounted_ledger hoffer

/-- **Run lemma.** After any run the counters are those of its trace. -/
theorem run_stats {calls : List (Call F)} {trace : List (Event F)}
    (h : s.run calls = some (trace, s')) :
    s'.stats = s.stats.plus (ledger trace) ∧ (ledger trace).balanced = true ∧
      ∀ e ∈ trace, (ledger [e]).balanced = true := by
  induction calls generalizing s trace with
  | nil =>
    cases h
    exact ⟨rfl, rfl, fun e he => by cases he⟩
  | cons c cs ih =>
    obtain ⟨⟨o, s₁⟩, hcall, h⟩ := Option.bind_eq_some_iff.mp h
    obtain ⟨⟨rest, s₂⟩, hrest, h⟩ := Option.bind_eq_some_iff.mp h
    cases h
    obtain ⟨hstats, hbal⟩ := call_stats hcall
    obtain ⟨hstats', hbal', hall⟩ := ih hrest
    refine ⟨?_, ?_, fun e he => ?_⟩
    · rw [hstats', hstats, BridgeStats.plus_assoc, ← ledger_cons]
    · rw [ledger_cons]
      exact BridgeStats.balanced_plus hbal hbal'
    · rcases List.mem_cons.mp he with rfl | he
      · exact hbal
      · exact hall e he

end Ingest

section Stats

variable [Floats F] {config : TopologyConfig F} {policy : AuthorityPolicy} {clock : ClockPolicy F}
  {tfPrefix : Option String} {calls : List (Call F)} {trace : List (Event F)} {s : Ingest F}

/-- **Main theorem.** After any run the counters are those of its trace: a counter is the
    number of the actions it stands for, and every transform that was counted is in
    exactly one bucket. A halt at the close of the startup window counts nothing. -/
theorem stats_balanced (h : Ingest.runFrom config policy clock tfPrefix calls = some (trace, s)) :
    s.stats.balanced = true ∧ s.stats = ledger trace ∧
      (∀ e ∈ trace, (ledger [e]).balanced = true) ∧
      ∀ c a s', s.call c = some (some a, s') → a.isStartupHalt = true → s'.stats = s.stats := by
  obtain ⟨s₀, hs₀, hrun⟩ := Option.bind_eq_some_iff.mp h
  have hnew : s₀.stats = {} := by
    unfold Ingest.withPolicies at hs₀
    obtain ⟨statics, -, hs₀⟩ := Option.bind_eq_some_iff.mp hs₀
    obtain ⟨authority, -, hs₀⟩ := Option.bind_eq_some_iff.mp hs₀
    cases hs₀
    rfl
  obtain ⟨hstats, hbal, hall⟩ := Ingest.run_stats hrun
  rw [hnew, BridgeStats.empty_plus] at hstats
  refine ⟨by rw [hstats]; exact hbal, hstats, hall, fun c a s' hcall hhalt => ?_⟩
  have hcount : countedEvent ((c, some a) : Event F) = false := by
    unfold countedEvent
    cases c <;> simp [hhalt]
  have hledger : ledger [((c, some a) : Event F)] = {} := by
    unfold ledger
    rw [List.countP_singleton, hcount, actions_singleton, Option.toList_some,
      chargesOf_startupHalt hhalt]
    rfl
  rw [(Ingest.call_stats hcall).1, hledger]
  rfl

end Stats

/-- Two publishers of one edge, and a sample of an edge that is not declared. -/
def strictPair : Option (List (Event Hundredths) × Ingest Hundredths) :=
  Ingest.runFrom { edges := [⟨"odom", "base", .dynamic (.slots 64), none, none⟩] }
    .strict (exampleClock .halt) none
    [.offer .tf ⟨"odom", "base", 100000000000, 100000000000, .replicate 7 0⟩ (.topic "wheels"),
      .offer .tf ⟨"odom", "base", 100100000000, 100100000000, .replicate 7 0⟩ (.topic "amcl"),
      .offer .tf ⟨"map", "odom", 100100000000, 100100000000, .replicate 7 0⟩ (.topic "amcl")]

set_option maxRecDepth 20000 in
/-- The close of the window halts, and is not counted. -/
theorem stats_balanced_strict :
    ∃ trace s a s', strictPair = some (trace, s) ∧ s.stats.transforms = 3 ∧
      s.stats.balanced = true ∧ s.stats = ledger trace ∧
      (∀ e ∈ trace, (ledger [e]).balanced = true) ∧
      s.call .closeStartupWindow = some (some a, s') ∧ s'.stats = s.stats := by
  have hout : (strictPair.bind fun r => (r.2.call .closeStartupWindow).bind fun r' =>
      r'.1.map fun a => (r.2.stats.transforms, a.isStartupHalt)) = some (3, true) := by
    decide
  obtain ⟨⟨trace, s⟩, hrun, hout⟩ := Option.bind_eq_some_iff.mp hout
  obtain ⟨⟨o, s'⟩, hcall, hout⟩ := Option.bind_eq_some_iff.mp hout
  obtain ⟨a, rfl, heq⟩ := Option.map_eq_some_iff.mp hout
  obtain ⟨hcount, hhalt⟩ := Prod.mk.inj heq
  obtain ⟨hbalanced, hledger, heach, hsilent⟩ := stats_balanced hrun
  exact ⟨trace, s, a, s', hrun, hcount, hbalanced, hledger, heach, hcall,
    hsilent _ a s' hcall hhalt⟩

end TfTree.Bridge
