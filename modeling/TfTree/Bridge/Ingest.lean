import TfTree.Bridge.Clock

/-!
# The decision pipeline

`ingest.rs` of `tf_tree_bridge`: what the bridge does with a sample. `none` is a panic.
The counters that no decision reads beside `transforms` are kept as the source has them;
`messages` and the queue depth are not moved by a sample and are left out.

Results:
* `Ingest.withPolicies_ok`: the tables of a new pipeline are in order, and agree on
  the slots of the declared edges.
* `Ingest.Ok.resolve`: a sample is resolved by the normalized names alone.
* `Ingest.Ok.offerCounted`: what a sample that is decided on does to the tables.
-/

namespace TfTree.Bridge

open Data

variable {F : Type}

/-! ## Model of `ingest.rs` -/

/-- `DropReason`. -/
inductive DropReason where
  | badName
  | nonMonotonic (byNanos : ℤ)
  | kindChange
  deriving DecidableEq, Repr

/-- `HaltReason`. -/
inductive HaltReason where
  | authorityConflict (owner intruder : Publisher)
  | clockReset (deltaNanos : ℤ) (evidence : ClockEvidence)
  | startupConflicts (authority statics : ℕ)
  deriving DecidableEq, Repr

/-- `Action` (lines 55–133). -/
inductive Action (F : Type) where
  | publish (parent child : String) (stampNanos : ℤ) (pose : PoseWords F)
  | staticVerified (parent child : String)
  | undeclaredEdge (parent child : String) (firstTime : Bool)
  | authorityConflict (parent child : String) (owner intruder : Publisher) (firstTime : Bool)
  | staticConflict (parent child : String) (owner intruder : Publisher)
      (existing offered : PoseWords F) (firstTime : Bool)
  | drop (reason : DropReason)
  | halt (reason : HaltReason)
  | recreateArena (deltaNanos : ℤ) (evidence : ClockEvidence)

/-- `BridgeStats` (`stats.rs`), what a sample moves. -/
structure BridgeStats where
  transforms : ℕ := 0
  applied : ℕ := 0
  staticVerified : ℕ := 0
  droppedAuthority : ℕ := 0
  droppedNonMonotonic : ℕ := 0
  droppedBadName : ℕ := 0
  droppedKindChange : ℕ := 0
  droppedUndeclared : ℕ := 0
  clockResets : ℕ := 0
  staticConflicts : ℕ := 0
  deriving DecidableEq, Repr

/-- `MAX_UNDECLARED_PARENTS`. -/
def maxUndeclaredParents : ℕ := 256

/-- `MAX_UNDECLARED_CHILDREN`. -/
def maxUndeclaredChildren : ℕ := 256

/-- `STARTUP_WINDOW_TRANSFORMS`. -/
def startupWindowTransforms : ℕ := 4096

/-- `ByEdge` (`edgemap.rs`). -/
abbrev ByEdge := Std.TreeMap String (Std.TreeMap String ℕ)

/-- `Resolved` (lines 185–192). -/
inductive Resolved where
  | declared (slot : ℕ)
  | undeclared (parent child : String)
  | badName
  deriving DecidableEq, Repr

/-- `Ingest` (lines 196–217). -/
structure Ingest (F : Type) where
  names : NameNormalizer
  raw : EdgeIndex ℕ
  declared : TopologyConfig F
  statics : StaticStore F
  authority : Authority
  clocks : List ClockGuard
  clock : ClockPolicy F
  offsets : OffsetTable F
  startupWindowOpen : Bool
  stats : BridgeStats
  undeclared : ByEdge

namespace Ingest

/-- The normalizer of a bridge. -/
def namesFor (tfPrefix : Option String) : NameNormalizer :=
  tfPrefix.elim NameNormalizer.new NameNormalizer.withPrefix

/-- `Ingest::with_policies` (lines 255–287). -/
def withPolicies (config : TopologyConfig F) (authority : AuthorityPolicy)
    (clock : ClockPolicy F) (tfPrefix : Option String) : Option (Ingest F) := do
  let (declared, names) := config.rewritten (namesFor tfPrefix)
  let statics ← StaticStore.seeded declared
  let authority ← Authority.seeded authority declared
  return {
    names := names
    raw := .withCapacity (4 * statics.slots)
    declared := declared
    statics := statics
    authority := authority
    clocks := List.replicate statics.slots
      (.withThreshold clock.onReset clock.resetThresholdNanos)
    clock := clock
    offsets := .new clock
    startupWindowOpen := true
    stats := {}
    undeclared := ∅ }

/-- Whether a raw name starts with a slash, as a number. -/
def slashes (raw : String) : ℕ := if raw.toList.head? = some '/' then 1 else 0

/-- `Ingest::resolve` (lines 295–313). -/
def resolve (s : Ingest F) (sample : Sample F) : Option (Resolved × Ingest F) := do
  let rp := sample.frameId
  let rc := sample.childFrameId
  match ← s.raw.get rp rc with
  | some slot => return (.declared slot, { s with
      names := s.names.noteStripped (slashes rp + slashes rc) })
  | none =>
    let (parent, names) := s.names.normalize rp
    let (child, names) := names.normalize rc
    let s := { s with names := names }
    match parent, child with
    | some parent, some child =>
      match ← s.statics.resolve parent.name child.name with
      | some slot =>
        let raw ← s.raw.insert rp rc slot
        return (.declared slot, { s with raw := raw })
      | none => return (.undeclared parent.name child.name, s)
    | _, _ => return (.badName, s)

/-- `Ingest::close_startup_window` (lines 533–551). -/
def closeStartupWindow (s : Ingest F) : Option (Option (Action F) × Ingest F) := do
  if s.startupWindowOpen then
    let s := { s with startupWindowOpen := false }
    if s.authority.policy ≠ .strict then return (none, s)
    else
      let rows ← s.authority.conflicts
      let edges ← s.statics.conflictsByEdge
      let authority := min rows.length u32Max
      let statics := min edges.length u32Max
      if authority = 0 ∧ statics = 0 then return (none, s)
      else return (some (.halt (.startupConflicts authority statics)), s)
  else return (none, s)

/-- The undeclared arm of `offer` (lines 335–360). -/
def noteUndeclared (s : Ingest F) (parent child : String) : Action F × Ingest F :=
  let children := s.undeclared.get? parent
  let atCap := decide (s.undeclared.size ≥ maxUndeclaredParents) ||
    children.elim false fun c => decide (c.size ≥ maxUndeclaredChildren)
  let (firstTime, undeclared) :=
    match children.bind fun c => c.get? child with
    | some n => (false, s.undeclared.insert parent ((children.getD ∅).insert child (n + 1)))
    | none =>
      if atCap then (false, s.undeclared)
      else (true, s.undeclared.insert parent ((children.getD ∅).insert child 1))
  (.undeclaredEdge parent child firstTime, { s with
    undeclared := undeclared
    stats := { s.stats with droppedUndeclared := s.stats.droppedUndeclared + 1 } })

/-- `Ingest::forget_the_old_recording` (lines 520–525). -/
def forgetTheOldRecording (s : Ingest F) : Ingest F :=
  { s with clocks := s.clocks.map ClockGuard.forget, offsets := s.offsets.clear }

/-- `Ingest::apply_clock_reset` (lines 499–516). -/
def applyClockReset (s : Ingest F) (deltaNanos : ℤ) (evidence : ClockEvidence) :
    Action F × Ingest F :=
  let s := { s with stats := { s.stats with clockResets := s.stats.clockResets + 1 } }
  match s.clock.onReset with
  | .halt => (.halt (.clockReset deltaNanos evidence), s)
  | .recreate => (.recreateArena deltaNanos evidence, s.forgetTheOldRecording)

/-- `Ingest::note_time_jump` (lines 492–494). -/
def noteTimeJump (s : Ingest F) (deltaNanos : ℤ) (kind : JumpKind) : Action F × Ingest F :=
  s.applyClockReset deltaNanos (.reported kind)

variable [Floats F]

/-- Step 4 of `offer`, the value of a static sample (lines 373–411). -/
def offerStatic (s : Ingest F) (slot : ℕ) (sample : Sample F) (publisher : Publisher) :
    Option (Action F × Ingest F) := do
  let (verdict, statics) ← s.statics.observeStaticAt slot sample.pose publisher
  let s := { s with statics := statics }
  match verdict with
  | .idempotent | .declare =>
    let (parent, child) ← s.statics.namesOf slot
    return (.staticVerified parent child, { s with
      stats := { s.stats with staticVerified := s.stats.staticVerified + 1 } })
  | .kindChanged _ =>
    return (.drop .kindChange, { s with
      stats := { s.stats with droppedKindChange := s.stats.droppedKindChange + 1 } })
  | .conflict owner intruder existing offered firstTime =>
    let (parent, child) ← s.statics.namesOf slot
    return (.staticConflict parent child owner intruder existing offered firstTime, { s with
      stats := { s.stats with
        staticConflicts := s.stats.staticConflicts + 1
        droppedAuthority := s.stats.droppedAuthority + 1 } })

/-- Step 6 of `offer`, the clocks (lines 443–479). -/
def offerClock (s : Ingest F) (slot : ℕ) (sample : Sample F) (publisher : Publisher) :
    Option (Action F × Ingest F) := do
  let (common, offsets) ← s.offsets.observe publisher.key sample.stampNanos sample.received
  let s := { s with offsets := offsets }
  match common with
  | some common =>
    return { s with stats := { s.stats with
      droppedNonMonotonic := s.stats.droppedNonMonotonic + 1 } }.applyClockReset
        common.deltaNanos (.commonMode common.publishers)
  | none =>
    let guard ← s.clocks[slot]?
    let (verdict, guard) := guard.observe sample.stampNanos
    let clocks ← setAt s.clocks slot guard
    let s := { s with clocks := clocks }
    match verdict with
    | .forward =>
      let (parent, child) ← s.statics.namesOf slot
      return (.publish parent child sample.stampNanos sample.pose, { s with
        stats := { s.stats with applied := s.stats.applied + 1 } })
    | .jitter byNanos | .reset byNanos _ =>
      return (.drop (.nonMonotonic byNanos), { s with
        stats := { s.stats with droppedNonMonotonic := s.stats.droppedNonMonotonic + 1 } })

/-- Steps 5 and 6 of `offer`: the authority, then the clocks (lines 413–479). -/
def offerDynamic (s : Ingest F) (slot : ℕ) (sample : Sample F) (publisher : Publisher) :
    Option (Action F × Ingest F) := do
  let (parent, child) ← s.statics.namesOf slot
  let (verdict, authority) ← s.authority.admitAt slot publisher
  let s := { s with authority := authority }
  match verdict with
  | .accept => s.offerClock slot sample publisher
  | .reject owner intruder firstTime | .fatal owner intruder firstTime =>
    return (.authorityConflict parent child owner intruder firstTime, { s with
      stats := { s.stats with droppedAuthority := s.stats.droppedAuthority + 1 } })

/-- Steps 3 to 6 of `offer`, on a declared edge. -/
def offerDeclared (s : Ingest F) (topic : Topic) (slot : ℕ) (sample : Sample F)
    (publisher : Publisher) : Option (Action F × Ingest F) := do
  let kind ← s.statics.kindAt slot
  match topic with
  | .tf =>
    if kind = .static then
      return (.drop .kindChange, { s with
        stats := { s.stats with droppedKindChange := s.stats.droppedKindChange + 1 } })
    else s.offerDynamic slot sample publisher
  | .tfStatic => s.offerStatic slot sample publisher

/-- Steps 1 to 6 of `offer`: the transform is counted and decided on. -/
def offerCounted (s : Ingest F) (topic : Topic) (sample : Sample F) (publisher : Publisher) :
    Option (Action F × Ingest F) := do
  let s := { s with stats := { s.stats with transforms := s.stats.transforms + 1 } }
  let (resolved, s) ← s.resolve sample
  match resolved with
  | .declared slot => s.offerDeclared topic slot sample publisher
  | .badName =>
    return (.drop .badName, { s with
      stats := { s.stats with droppedBadName := s.stats.droppedBadName + 1 } })
  | .undeclared parent child => return s.noteUndeclared parent child

/-- `Ingest::offer` (lines 316–480). -/
def offer (s : Ingest F) (topic : Topic) (sample : Sample F) (publisher : Publisher) :
    Option (Action F × Ingest F) := do
  if s.startupWindowOpen ∧ s.stats.transforms ≥ startupWindowTransforms then
    let (halt, s) ← s.closeStartupWindow
    match halt with
    | some halt => return (halt, s)
    | none => s.offerCounted topic sample publisher
  else s.offerCounted topic sample publisher

end Ingest

/-! ## The tables agree -/

/-- What a raw pair of names stands for, among the declared edges `keys`. -/
def resolvedAs (tfPrefix : Option String) (keys : List (String × String))
    (raw : String × String) : Resolved :=
  match NameNormalizer.nameOf tfPrefix raw.1, NameNormalizer.nameOf tfPrefix raw.2 with
  | some parent, some child =>
    match position keys (parent, child) with
    | some slot => .declared slot
    | none => .undeclared parent child
  | _, _ => .badName

/-- `Sample::edge`. -/
def Sample.edge (sample : Sample F) : String × String := (sample.frameId, sample.childFrameId)

namespace Ingest

/-- The declared edges, by slot. -/
def keys (s : Ingest F) : List (String × String) := s.statics.index.table.keys

/-- The clock marks, by slot. -/
def marks (s : Ingest F) : List (Option ℤ) := s.clocks.map ClockGuard.newest

/-- The tables are in order, have one entry for each declared edge, and the raw spellings
    remembered are those of the slot they stand for. -/
structure Ok (s : Ingest F) : Prop where
  statics : s.statics.Ok
  authority : s.authority.Ok
  slots : s.authority.index.table.keys = s.keys
  clocks : s.clocks.length = s.keys.length
  offsets : s.offsets.ids.Ok
  raw : s.raw.Ok
  cached : ∀ raw slot, (position s.raw.table.keys raw).bind (s.raw.values[·]?) = some slot →
    resolvedAs s.names.tfPrefix s.keys raw = .declared slot

/-- What no step changes. -/
structure Fixed (s s' : Ingest F) : Prop where
  index : s'.statics.index = s.statics.index
  kinds : s'.statics.kinds = s.statics.kinds
  tfPrefix : s'.names.tfPrefix = s.names.tfPrefix
  clock : s'.clock = s.clock
  policy : s'.authority.policy = s.authority.policy

variable {s s' s'' : Ingest F}

theorem Fixed.refl (s : Ingest F) : s.Fixed s := ⟨rfl, rfl, rfl, rfl, rfl⟩

theorem Fixed.trans (h : s.Fixed s') (h' : s'.Fixed s'') : s.Fixed s'' :=
  ⟨h'.index.trans h.index, h'.kinds.trans h.kinds, h'.tfPrefix.trans h.tfPrefix,
    h'.clock.trans h.clock, h'.policy.trans h.policy⟩

theorem Fixed.keys (h : s.Fixed s') : s'.keys = s.keys := by
  unfold Ingest.keys
  rw [h.index]

/-- The pipeline over a topology starts with its tables in order. -/
theorem withPolicies_ok (config : TopologyConfig F) (policy : AuthorityPolicy)
    (clock : ClockPolicy F) (tfPrefix : Option String) :
    ∃ s, withPolicies config policy clock tfPrefix = some s ∧ s.Ok ∧
      s.authority.policy = policy ∧
      Authority.seeded policy (config.rewritten (namesFor tfPrefix)).1 = some s.authority ∧
      s.keys = slotKeys (config.rewritten (namesFor tfPrefix)).1.edges ∧
      (∀ k, s.statics.kindOf k = lastKind (config.rewritten (namesFor tfPrefix)).1.edges k) ∧
      s.names.tfPrefix = (namesFor tfPrefix).tfPrefix ∧
      s.marks = List.replicate s.keys.length none := by
  obtain ⟨statics, hst, hsok, hskeys, hkinds⟩ :=
    StaticStore.seeded_ok (config.rewritten (namesFor tfPrefix)).1
  obtain ⟨authority, hau, haok, hpol, hakeys, -⟩ :=
    Authority.seeded_ok policy (config.rewritten (namesFor tfPrefix)).1
  have hraw : (EdgeIndex.withCapacity (4 * statics.slots) : EdgeIndex ℕ).Ok :=
    EdgeIndex.ok_withCapacity _
  refine ⟨⟨(config.rewritten (namesFor tfPrefix)).2, .withCapacity (4 * statics.slots),
      (config.rewritten (namesFor tfPrefix)).1, statics, authority,
      List.replicate statics.slots (.withThreshold clock.onReset clock.resetThresholdNanos), clock,
      .new clock, true, {}, ∅⟩, ?_,
    ⟨hsok, haok, hakeys.trans hskeys.symm, ?_, OffsetTable.ok_new clock, hraw, ?_⟩,
    hpol, hau, hskeys, hkinds, rewritten_tfPrefix _ _, ?_⟩
  · unfold withPolicies
    simp only [Option.bind_eq_bind, hst, hau, Option.bind_some]
    rfl
  · rw [List.length_replicate]
    exact hsok.kinds
  · intro raw slot h
    cases h
  · show (List.replicate statics.slots _).map ClockGuard.newest = List.replicate _ none
    rw [List.map_replicate]
    show List.replicate statics.kinds.length none = _
    rw [hsok.kinds]
    rfl

/-! ## Names -/

/-- A change of the normalizer and of the remembered spellings. -/
theorem Ok.withNames (hs : s.Ok) {names : NameNormalizer} {raw : EdgeIndex ℕ}
    (hn : names.tfPrefix = s.names.tfPrefix) (hraw : raw.Ok)
    (hcached : ∀ k slot, (position raw.table.keys k).bind (raw.values[·]?) = some slot →
      resolvedAs s.names.tfPrefix s.keys k = .declared slot) :
    ({ s with names := names, raw := raw } : Ingest F).Ok :=
  ⟨hs.statics, hs.authority, hs.slots, hs.clocks, hs.offsets, hraw, by
    intro k slot h
    show resolvedAs names.tfPrefix s.keys k = .declared slot
    rw [hn]
    exact hcached k slot h⟩

/-- A spelling that is new is remembered with its slot. -/
theorem Ok.remember (hs : s.Ok) {k : String × String} {slot : ℕ} {raw : EdgeIndex ℕ}
    (hnew : k ∉ s.raw.table.keys) (hk : resolvedAs s.names.tfPrefix s.keys k = .declared slot)
    (hkeys : raw.table.keys = s.raw.table.keys ++ [k])
    (hvalues : raw.values = s.raw.values ++ [slot])
    (k' : String × String) (slot' : ℕ)
    (h : (position raw.table.keys k').bind (raw.values[·]?) = some slot') :
    resolvedAs s.names.tfPrefix s.keys k' = .declared slot' := by
  rw [hkeys, hvalues] at h
  obtain ⟨e, he, hval⟩ := Option.bind_eq_some_iff.mp h
  by_cases hold : k' ∈ s.raw.table.keys
  · obtain ⟨e', he'⟩ := exists_position hold
    have hlt := position_lt he'
    rw [position_append _ he'] at he
    cases he
    rw [← hs.raw.values] at hlt
    refine hs.cached k' slot' ?_
    rw [he', Option.bind_some, ← List.getElem?_append_left hlt]
    exact hval
  · have hmem := List.mem_of_getElem? (getElem?_of_position he)
    obtain rfl : k' = k := by
      rcases List.mem_append.mp hmem with hmem | hmem
      · exact absurd hmem hold
      · exact List.mem_singleton.mp hmem
    rw [position_concat hnew] at he
    cases he
    rw [← hs.raw.values, List.getElem?_concat_length] at hval
    cases hval
    exact hk

/-- A sample is resolved by the normalized names alone. -/
theorem Ok.resolve (hs : s.Ok) (sample : Sample F) :
    ∃ s', s.resolve sample = some (resolvedAs s.names.tfPrefix s.keys sample.edge, s') ∧ s'.Ok ∧
      s.Fixed s' ∧ s'.clocks = s.clocks ∧ s'.authority = s.authority ∧ s'.statics = s.statics := by
  unfold Ingest.resolve
  dsimp only
  rw [hs.raw.get]
  simp only [Option.bind_eq_bind, Option.bind_some]
  cases hraw : (position s.raw.table.keys (sample.frameId, sample.childFrameId)).bind
      (s.raw.values[·]?) with
  | some slot =>
    rw [hs.cached sample.edge slot hraw]
    exact ⟨_, rfl, hs.withNames rfl hs.raw hs.cached, ⟨rfl, rfl, rfl, rfl, rfl⟩, rfl, rfl, rfl⟩
  | none =>
    dsimp only
    have hp := s.names.normalize_eq sample.frameId
    have hc := (s.names.normalize sample.frameId).2.normalize_eq sample.childFrameId
    rw [NameNormalizer.normalize_tfPrefix] at hc
    have hpre : ((s.names.normalize sample.frameId).2.normalize sample.childFrameId).2.tfPrefix =
        s.names.tfPrefix := by simp
    have hnames := hs.withNames hpre hs.raw hs.cached
    have hres : resolvedAs s.names.tfPrefix s.keys sample.edge =
        match (s.names.normalize sample.frameId).1.map Normalized.name,
          ((s.names.normalize sample.frameId).2.normalize sample.childFrameId).1.map
            Normalized.name with
        | some parent, some child =>
          match position s.keys (parent, child) with
          | some slot => .declared slot
          | none => .undeclared parent child
        | _, _ => .badName := by
      rw [hp, hc]
      rfl
    cases h₁ : (s.names.normalize sample.frameId).1 with
    | none =>
      rw [hres, h₁]
      exact ⟨_, rfl, hnames, ⟨rfl, rfl, hpre, rfl, rfl⟩, rfl, rfl, rfl⟩
    | some parent =>
      cases h₂ : ((s.names.normalize sample.frameId).2.normalize sample.childFrameId).1 with
      | none =>
        rw [hres, h₁, h₂]
        exact ⟨_, rfl, hnames, ⟨rfl, rfl, hpre, rfl, rfl⟩, rfl, rfl, rfl⟩
      | some child =>
        rw [h₁, h₂] at hres
        dsimp only [Option.map_some] at hres ⊢
        unfold StaticStore.resolve
        rw [hs.statics.index.get, Option.bind_some]
        change resolvedAs s.names.tfPrefix s.keys sample.edge =
          match position s.statics.index.table.keys (parent.name, child.name) with
          | some slot => .declared slot
          | none => .undeclared parent.name child.name at hres
        cases hpos : position s.statics.index.table.keys (parent.name, child.name) with
        | none =>
          rw [hpos] at hres
          rw [hres]
          exact ⟨_, rfl, hnames, ⟨rfl, rfl, hpre, rfl, rfl⟩, rfl, rfl, rfl⟩
        | some slot =>
          rw [hpos] at hres
          have hnew : sample.edge ∉ s.raw.table.keys := by
            intro hmem
            obtain ⟨e, he⟩ := exists_position hmem
            have hlt := position_lt he
            rw [← hs.raw.values] at hlt
            change (position s.raw.table.keys sample.edge).bind (s.raw.values[·]?) = none at hraw
            rw [he, Option.bind_some, List.getElem?_eq_getElem hlt] at hraw
            cases hraw
          obtain ⟨raw, hins, hok, hkeys, hvalues⟩ := hs.raw.insert hnew slot
          simp only [hins, Option.bind_some]
          rw [hres]
          exact ⟨_, rfl, hs.withNames hpre hok (hs.remember hnew hres hkeys hvalues),
            ⟨rfl, rfl, hpre, rfl, rfl⟩, rfl, rfl, rfl⟩

/-! ## What a sample does -/

end Ingest

/-- The edge and the stamp of a published sample. -/
def Action.published : Action F → Option ((String × String) × ℤ)
  | .publish parent child stampNanos _ => some ((parent, child), stampNanos)
  | _ => none

/-- Whether the arena is to be built anew. -/
def Action.isRecreate : Action F → Bool
  | .recreateArena _ _ => true
  | _ => false

/-- Whether a sample was answered by the close of the startup window. -/
def Action.isStartupHalt : Action F → Bool
  | .halt (.startupConflicts _ _) => true
  | _ => false

/-- What a sample does to the clock marks: a published one moves the mark of its edge
    forward, a new arena has no marks, and everything else leaves them. -/
inductive ClockEffect (keys : List (String × String)) (onReset : OnClockReset)
    (marks marks' : List (Option ℤ)) (a : Action F) : Prop where
  | kept (published : a.published = none) (recreate : a.isRecreate = false)
      (same : marks' = marks)
  | forgot (published : a.published = none) (recreate : a.isRecreate = true)
      (policy : onReset = .recreate) (none : marks' = marks.map fun _ => none)
  | moved (slot : ℕ) (e : String × String) (t : ℤ) (published : a.published = some (e, t))
      (recreate : a.isRecreate = false) (at_slot : keys[slot]? = some e)
      (forward : ∀ newest, marks[slot]? = some (some newest) → newest ≤ t)
      (mark : marks' = marks.set slot (some t))

/-- The sample reaches the authority: it came on `/tf`, and names a declared dynamic
    edge. -/
def arrivalIn (tfPrefix : Option String) (kindOf : String × String → Option StaticKind)
    (topic : Topic) (sample : Sample F) (publisher : Publisher) : Option Arrival :=
  match topic, NameNormalizer.nameOf tfPrefix sample.frameId,
      NameNormalizer.nameOf tfPrefix sample.childFrameId with
  | .tf, some parent, some child =>
    if kindOf (parent, child) = some .dynamic then some ((parent, child), publisher) else none
  | _, _, _ => none

namespace Ingest

/-- A sample that is decided on: the tables stay in order, and the authority is asked
    exactly if the sample is an arrival. -/
structure Outcome (s : Ingest F) (arrival : Option Arrival) (a : Action F) (s' : Ingest F) :
    Prop where
  ok : s'.Ok
  fixed : s.Fixed s'
  counted : a.isStartupHalt = false
  clocks : ClockEffect s.keys s.clock.onReset s.marks s'.marks a
  unasked : arrival = none → s'.authority = s.authority
  asked : ∀ e p, arrival = some (e, p) → ∃ slot v, s.keys[slot]? = some e ∧
    s.authority.admitAt slot p = some (v, s'.authority)

variable {s s' : Ingest F} {a : Action F} {arrival : Option Arrival}

/-- A change of what no invariant reads. -/
theorem Ok.withStats (hs : s.Ok) (stats : BridgeStats) (undeclared : ByEdge) :
    ({ s with stats := stats, undeclared := undeclared } : Ingest F).Ok :=
  ⟨hs.statics, hs.authority, hs.slots, hs.clocks, hs.offsets, hs.raw, hs.cached⟩

theorem Ok.withOffsets (hs : s.Ok) {offsets : OffsetTable F} (h : offsets.ids.Ok) :
    ({ s with offsets := offsets } : Ingest F).Ok :=
  ⟨hs.statics, hs.authority, hs.slots, hs.clocks, h, hs.raw, hs.cached⟩

theorem Ok.withClocks (hs : s.Ok) {clocks : List ClockGuard} (h : clocks.length = s.clocks.length) :
    ({ s with clocks := clocks } : Ingest F).Ok :=
  ⟨hs.statics, hs.authority, hs.slots, h.trans hs.clocks, hs.offsets, hs.raw, hs.cached⟩

theorem Ok.withAuthority (hs : s.Ok) {authority : Authority} (h : authority.Ok)
    (hi : authority.index = s.authority.index) :
    ({ s with authority := authority } : Ingest F).Ok :=
  ⟨hs.statics, h, by rw [hi]; exact hs.slots, hs.clocks, hs.offsets, hs.raw, hs.cached⟩

theorem Ok.withStatics (hs : s.Ok) {statics : StaticStore F} (h : statics.Ok)
    (hsame : s.statics.SameSlots statics) : ({ s with statics := statics } : Ingest F).Ok := by
  have hkeys : ({ s with statics := statics } : Ingest F).keys = s.keys := by
    show statics.index.table.keys = s.statics.index.table.keys
    rw [hsame.index]
  exact ⟨h, hs.authority, by rw [hkeys]; exact hs.slots, by rw [hkeys]; exact hs.clocks, hs.offsets,
    hs.raw, by rw [hkeys]; exact hs.cached⟩

/-- A step that only leaves a count behind. -/
theorem Ok.counted (hs : s.Ok) (hp : a.published = none) (hr : a.isRecreate = false)
    (hh : a.isStartupHalt = false) (stats : BridgeStats) (undeclared : ByEdge) :
    s.Outcome none a { s with stats := stats, undeclared := undeclared } where
  ok := hs.withStats stats undeclared
  fixed := ⟨rfl, rfl, rfl, rfl, rfl⟩
  counted := hh
  clocks := .kept hp hr rfl
  unasked := fun _ => rfl
  asked := fun _ _ h => by cases h

/-- A clock event. -/
theorem Ok.applyClockReset (hs : s.Ok) (deltaNanos : ℤ) (evidence : ClockEvidence) :
    s.Outcome none (s.applyClockReset deltaNanos evidence).1
      (s.applyClockReset deltaNanos evidence).2 := by
  unfold Ingest.applyClockReset
  dsimp only
  cases hpol : s.clock.onReset with
  | halt => exact hs.counted rfl rfl rfl _ _
  | recreate =>
    have hstats := hs.withStats { s.stats with clockResets := s.stats.clockResets + 1 } s.undeclared
    refine ⟨?_, ⟨rfl, rfl, rfl, rfl, rfl⟩, rfl, .forgot rfl rfl hpol ?_, fun _ => rfl,
      fun _ _ h => ?_⟩
    · have hcleared : s.offsets.clear.ids.Ok := hs.offsets
      exact (hstats.withOffsets hcleared).withClocks (by simp)
    · show (s.clocks.map ClockGuard.forget).map ClockGuard.newest = s.marks.map fun _ => none
      unfold marks
      rw [List.map_map, List.map_map]
      rfl
    · cases h

variable [Floats F]

/-- A static sample. -/
theorem Ok.offerStatic (hs : s.Ok) {slot : ℕ} (hslot : slot < s.keys.length) (sample : Sample F)
    (publisher : Publisher) :
    ∃ a s', s.offerStatic slot sample publisher = some (a, s') ∧ s.Outcome none a s' := by
  obtain ⟨v, statics, hobs, hok, hsame⟩ := hs.statics.observeStaticAt hslot sample.pose publisher
  have hs' := hs.withStatics hok hsame
  have hfixed : s.Fixed { s with statics := statics } := ⟨hsame.index, hsame.kinds, rfl, rfl, rfl⟩
  -- the counts are all that is left to change
  have hout : ∀ (a : Action F) (stats : BridgeStats), a.published = none → a.isRecreate = false →
      a.isStartupHalt = false → s.Outcome none a { s with statics := statics, stats := stats } := by
    intro a stats hp hr hh
    have h := hs'.counted hp hr hh stats s.undeclared
    exact ⟨h.ok, hfixed.trans h.fixed, hh, .kept hp hr rfl, fun _ => rfl, fun _ _ h => by cases h⟩
  have hname : statics.namesOf slot = some s.keys[slot] := by
    unfold StaticStore.namesOf EdgeIndex.key
    rw [hsame.index]
    exact List.getElem?_eq_getElem hslot
  unfold Ingest.offerStatic
  simp only [Option.bind_eq_bind, hobs, Option.bind_some]
  cases v with
  | declare => simp only [hname, Option.bind_some]; exact ⟨_, _, rfl, hout _ _ rfl rfl rfl⟩
  | idempotent => simp only [hname, Option.bind_some]; exact ⟨_, _, rfl, hout _ _ rfl rfl rfl⟩
  | kindChanged d => exact ⟨_, _, rfl, hout _ _ rfl rfl rfl⟩
  | conflict owner intruder existing offered firstTime =>
    simp only [hname, Option.bind_some]
    exact ⟨_, _, rfl, hout _ _ rfl rfl rfl⟩

/-- A sample the authority accepted. -/
theorem Ok.offerClock (hs : s.Ok) {slot : ℕ} (hslot : slot < s.keys.length) (sample : Sample F)
    (publisher : Publisher) :
    ∃ a s', s.offerClock slot sample publisher = some (a, s') ∧ s.Outcome none a s' := by
  obtain ⟨common, offsets, hobs, hok⟩ :=
    OffsetTable.observe_returns hs.offsets publisher.key sample.stampNanos sample.received
  have hs' := hs.withOffsets hok
  have hlt : slot < s.clocks.length := by rw [hs.clocks]; exact hslot
  unfold Ingest.offerClock
  simp only [Option.bind_eq_bind, hobs, Option.bind_some]
  cases common with
  | some common =>
    have h := (hs'.withStats { s.stats with
      droppedNonMonotonic := s.stats.droppedNonMonotonic + 1 } s.undeclared).applyClockReset
        common.deltaNanos (.commonMode common.publishers)
    exact ⟨_, _, rfl, h.ok, ⟨h.fixed.index, h.fixed.kinds, h.fixed.tfPrefix, h.fixed.clock,
      h.fixed.policy⟩, h.counted, h.clocks, fun _ => h.unasked rfl, fun _ _ h => by cases h⟩
  | none =>
    simp only [List.getElem?_eq_getElem hlt, setAt_eq hlt, Option.bind_some]
    have hmark : s.marks[slot]? = some (s.clocks[slot].newest) := by
      unfold marks
      rw [List.getElem?_map, List.getElem?_eq_getElem hlt]
      rfl
    have hmarks : ∀ g : ClockGuard, (s.clocks.set slot g).map ClockGuard.newest =
        s.marks.set slot g.newest := by
      intro g
      unfold marks
      rw [List.map_set]
    have hclocks : ∀ g : ClockGuard,
        ({ s with offsets := offsets, clocks := s.clocks.set slot g } : Ingest F).Ok :=
      fun g => hs'.withClocks (by simp)
    rcases s.clocks[slot].observe_cases sample.stampNanos with ⟨hforward, heq⟩ | ⟨-, hne, hsame⟩
    · -- the stamp becomes the mark
      rw [heq]
      simp only [StaticStore.namesOf, EdgeIndex.key]
      have hname : s.statics.index.table.keys[slot]? = some s.keys[slot] :=
        List.getElem?_eq_getElem hslot
      rw [hname, Option.bind_some]
      refine ⟨_, _, rfl, (hclocks _).withStats _ _, ⟨rfl, rfl, rfl, rfl, rfl⟩, rfl,
        .moved slot s.keys[slot] sample.stampNanos rfl rfl hname ?_ (hmarks _), fun _ => rfl,
        fun _ _ h => by cases h⟩
      intro newest hn
      rw [hmark] at hn
      exact hforward newest (Option.some_inj.mp hn)
    · -- the stamp is refused
      have hkept : (s.clocks.set slot (s.clocks[slot].observe sample.stampNanos).2).map
          ClockGuard.newest = s.marks := by
        rw [hmarks, hsame]
        have hget : slot < s.marks.length := by
          unfold marks
          rw [List.length_map]
          exact hlt
        have hval : s.marks[slot] = s.clocks[slot].newest := by
          rw [List.getElem?_eq_getElem hget] at hmark
          exact Option.some_inj.mp hmark
        rw [← hval, List.set_getElem_self]
      have hout : ∀ byNanos : ℤ, s.Outcome none (.drop (.nonMonotonic byNanos))
          { s with
            offsets := offsets
            clocks := s.clocks.set slot (s.clocks[slot].observe sample.stampNanos).2
            stats := { s.stats with droppedNonMonotonic := s.stats.droppedNonMonotonic + 1 } } :=
        fun byNanos => ⟨(hclocks _).withStats _ _, ⟨rfl, rfl, rfl, rfl, rfl⟩, rfl,
          .kept rfl rfl hkept, fun _ => rfl, fun _ _ h => by cases h⟩
      cases hv : (s.clocks[slot].observe sample.stampNanos).1 with
      | forward => exact absurd hv hne
      | jitter byNanos => exact ⟨_, _, rfl, hout byNanos⟩
      | reset byNanos policy => exact ⟨_, _, rfl, hout byNanos⟩

/-- A sample on a declared dynamic edge. -/
theorem Ok.offerDynamic (hs : s.Ok) {slot : ℕ} {e : String × String} (he : s.keys[slot]? = some e)
    (sample : Sample F) (publisher : Publisher) :
    ∃ a s', s.offerDynamic slot sample publisher = some (a, s') ∧
      s.Outcome (some (e, publisher)) a s' := by
  have hslot := (List.getElem?_eq_some_iff.mp he).1
  obtain ⟨v, authority, hadm, hok, hindex, hpol⟩ :=
    hs.authority.admitAt (by rw [hs.slots]; exact hslot) publisher
  have hs' := hs.withAuthority hok hindex
  have hfixed : s.Fixed { s with authority := authority } := ⟨rfl, rfl, rfl, rfl, hpol⟩
  have hasked : ∀ (a : Action F) (s' : Ingest F),
      ({ s with authority := authority } : Ingest F).Outcome none a s' →
      s.Outcome (some (e, publisher)) a s' := by
    intro a s' h
    refine ⟨h.ok, hfixed.trans h.fixed, h.counted, h.clocks, fun h => by (cases h),
      fun e' p' heq => ?_⟩
    cases heq
    exact ⟨slot, v, he, by rw [h.unasked rfl]; exact hadm⟩
  unfold Ingest.offerDynamic
  simp only [StaticStore.namesOf, EdgeIndex.key, Option.bind_eq_bind]
  rw [show s.statics.index.table.keys[slot]? = some e from he, Option.bind_some, hadm]
  simp only [Option.bind_some]
  cases v with
  | accept =>
    obtain ⟨a, s', hrun, hout⟩ := hs'.offerClock hslot sample publisher
    exact ⟨a, s', hrun, hasked a s' hout⟩
  | reject owner intruder firstTime =>
    exact ⟨_, _, rfl, hasked _ _ (hs'.counted rfl rfl rfl _ _)⟩
  | fatal owner intruder firstTime =>
    exact ⟨_, _, rfl, hasked _ _ (hs'.counted rfl rfl rfl _ _)⟩

/-- **Step lemma.** A transform is decided on: the pipeline returns, and what it did is one
    of the outcomes. -/
theorem Ok.offerCounted (hs : s.Ok) (topic : Topic) (sample : Sample F) (publisher : Publisher) :
    ∃ a s', s.offerCounted topic sample publisher = some (a, s') ∧
      s.Outcome (arrivalIn s.names.tfPrefix s.statics.kindOf topic sample publisher) a s' := by
  have hs₀ := hs.withStats { s.stats with transforms := s.stats.transforms + 1 } s.undeclared
  obtain ⟨s₁, hres, hs₁, hfixed, hclocks, hauth, hstat⟩ := hs₀.resolve sample
  have hback : ∀ {arrival : Option Arrival} {a : Action F} {s' : Ingest F},
      s₁.Outcome arrival a s' → s.Outcome arrival a s' := by
    intro arrival a s' h
    have hfix : s.Fixed s₁ :=
      ⟨hfixed.index, hfixed.kinds, hfixed.tfPrefix, hfixed.clock, hfixed.policy⟩
    have hkeys : s₁.keys = s.keys := hfix.keys
    have hmarks : s₁.marks = s.marks := congrArg (List.map ClockGuard.newest) hclocks
    refine ⟨h.ok, hfix.trans h.fixed, h.counted, ?_, fun hn => (h.unasked hn).trans hauth,
      fun e p he => ?_⟩
    · rw [← hkeys, ← hmarks, ← hfix.clock]
      exact h.clocks
    · rw [← hkeys, show s.authority = s₁.authority from hauth.symm]
      exact h.asked e p he
  unfold Ingest.offerCounted
  simp only [Option.bind_eq_bind, hres, Option.bind_some]
  -- what the names stand for
  change ∃ a s', (match resolvedAs s.names.tfPrefix s.keys sample.edge with
      | .declared slot => s₁.offerDeclared topic slot sample publisher
      | .badName => some (.drop .badName, { s₁ with
          stats := { s₁.stats with droppedBadName := s₁.stats.droppedBadName + 1 } })
      | .undeclared parent child => some (s₁.noteUndeclared parent child)) = some (a, s') ∧ _
  unfold resolvedAs arrivalIn Sample.edge
  cases hp : NameNormalizer.nameOf s.names.tfPrefix sample.frameId with
  | none =>
    cases topic <;> exact ⟨_, _, rfl, hback (hs₁.counted rfl rfl rfl _ _)⟩
  | some parent =>
    cases hc : NameNormalizer.nameOf s.names.tfPrefix sample.childFrameId with
    | none =>
      cases topic <;> exact ⟨_, _, rfl, hback (hs₁.counted rfl rfl rfl _ _)⟩
    | some child =>
      dsimp only
      cases hpos : position s.keys (parent, child) with
      | none =>
        -- the edge has no kind either
        have hkind : s.statics.kindOf (parent, child) = none := by
          unfold StaticStore.kindOf
          rw [show position s.statics.index.table.keys (parent, child) = none from hpos]
          rfl
        have hnote : s₁.Outcome none (s₁.noteUndeclared parent child).1
            (s₁.noteUndeclared parent child).2 := hs₁.counted rfl rfl rfl _ _
        cases topic with
        | tfStatic => exact ⟨_, _, rfl, hback hnote⟩
        | tf =>
          dsimp only
          rw [hkind, if_neg (by simp)]
          exact ⟨_, _, rfl, hback hnote⟩
      | some slot =>
        have hlt : slot < s₁.keys.length := by
          rw [show s₁.keys = s.keys from
            congrArg (fun i : EdgeIndex ℕ => i.table.keys) hfixed.index]
          exact position_lt hpos
        have he : s₁.keys[slot]? = some (parent, child) := by
          rw [show s₁.keys = s.keys from
            congrArg (fun i : EdgeIndex ℕ => i.table.keys) hfixed.index]
          exact getElem?_of_position hpos
        have hklt : slot < s₁.statics.kinds.length := by
          rw [hs₁.statics.kinds]
          exact hlt
        have hkind : s.statics.kindOf (parent, child) = some s₁.statics.kinds[slot] := by
          unfold StaticStore.kindOf
          rw [show position s.statics.index.table.keys (parent, child) = some slot from hpos,
            Option.bind_some, ← List.getElem?_eq_getElem hklt, hfixed.kinds]
        unfold Ingest.offerDeclared StaticStore.kindAt
        simp only [Option.bind_eq_bind, List.getElem?_eq_getElem hklt, Option.bind_some]
        cases topic with
        | tfStatic =>
          obtain ⟨a, s', hrun, hout⟩ := hs₁.offerStatic hlt sample publisher
          exact ⟨a, s', hrun, hback hout⟩
        | tf =>
          dsimp only
          rw [hkind]
          cases hk : s₁.statics.kinds[slot] with
          | static => exact ⟨_, _, rfl, hback (hs₁.counted rfl rfl rfl _ _)⟩
          | dynamic =>
            obtain ⟨a, s', hrun, hout⟩ := hs₁.offerDynamic he sample publisher
            exact ⟨a, s', hrun, hback hout⟩

end Ingest

end TfTree.Bridge
