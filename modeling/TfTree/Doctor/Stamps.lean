import Mathlib
import TfTree.Doctor.Snapshot

/-!
# The time-based checks

`tf_tree_cli/src/checks.rs` and `doctor.rs`: the checks that take distances between stamps of an
arena, which may be any 64-bit numbers. Each definition is an `Option`: `none` stands for an
overflowing operation, which panics in a debug build and wraps in a release build.

Results:
* `mapM_some`, `mapM_ne_none`, `foldlM_some`: loops of fallible steps.
* `intervalShape_of_fits`: the shape of a stream, on distances that fit.
* `time_checks_exact_iff`: the checks overflow nowhere and report exact figures exactly when the
  stamps they compare lie within 63 bits of each other.
-/

namespace TfTree.Doctor

/-! ## Machine arithmetic -/

/-- The range of `i64`. -/
def Fits (z : ℤ) : Prop := -2 ^ 63 ≤ z ∧ z < 2 ^ 63

instance (z : ℤ) : Decidable (Fits z) := inferInstanceAs (Decidable (_ ∧ _))

/-- An `i64` operation with the exact result `z`. -/
def i64 (z : ℤ) : Option ℤ := if Fits z then some z else none

/-- An `i128` operation with the exact result `z`. -/
def i128 (z : ℤ) : Option ℤ := if -2 ^ 127 ≤ z ∧ z < 2 ^ 127 then some z else none

/-- A saturating `i64` operation with the exact result `z`. -/
def saturating (z : ℤ) : ℤ := max (-2 ^ 63) (min z (2 ^ 63 - 1))

/-- The `{:.digits$}` format of an `f64`: the exact decimal, rounded half to even. -/
def fixed (digits : ℕ) (x : Float) : String :=
  if x.isNaN then "NaN"
  else
    let sign := if x.toBits.toNat / 2 ^ 63 = 1 then "-" else ""
    if x.isInf then sign ++ "inf"
    else
      let (m, e) := x.frExp
      let num := (m.scaleB 53).toInt64.toInt.natAbs * 10 ^ digits * 2 ^ (e - 53).toNat
      let den := 2 ^ (53 - e).toNat
      let down := num / den
      let rest := num % den
      let units := if 2 * rest < den ∨ 2 * rest = den ∧ down % 2 = 0 then down else down + 1
      let frac := toString (units % 10 ^ digits)
      sign ++ toString (units / 10 ^ digits) ++ "." ++ "".pushn '0' (digits - frac.length) ++ frac

/-! ## Model of the catalogue -/

/-- `Tft`, the variants of the checks here. -/
inductive Tft where
  | tft005
  | tft006
  | tft008
  | tft009
  deriving DecidableEq, Repr

/-- `catalogue::Finding`. -/
structure TftFinding where
  check : Tft
  edge : Option ℕ
  subject : String
  message : String
  deriving DecidableEq, Repr

/-- `Finding::on_edge`. -/
def TftFinding.onEdge (check : Tft) (edge : ℕ) (subject message : String) : TftFinding :=
  ⟨check, some edge, subject, message⟩

/-- `Finding::about`. -/
def TftFinding.about (check : Tft) (subject message : String) : TftFinding :=
  ⟨check, none, subject, message⟩

/-- `Status`. -/
inductive Status where
  | pass
  | fired
  | skipped (why : String)
  deriving DecidableEq, Repr

/-- `CheckOutcome`, without the mark of `--suppress`. -/
structure CheckOutcome where
  check : Tft
  status : Status
  findings : List TftFinding
  deriving DecidableEq, Repr

/-- `CheckOutcome::ran`. -/
def CheckOutcome.ran (check : Tft) (findings : List TftFinding) : CheckOutcome :=
  ⟨check, if findings = [] then .pass else .fired, findings⟩

/-- `CheckOutcome::skipped`. -/
def CheckOutcome.skipped (check : Tft) (why : String) : CheckOutcome := ⟨check, .skipped why, []⟩

/-! ## Model of `checks.rs` and `doctor.rs` -/

/-- `ABSURD_HORIZON_NS`. -/
def absurdHorizonNs : ℤ := 365 * 24 * 3600 * 1000000000

/-- `FUTURE_TOLERANCE_NS`. -/
def futureToleranceNs : ℤ := 50000000

/-- `GAP_FACTOR`. -/
def gapFactor : ℤ := 3

/-- `GAP_MIN_INTERVALS`. -/
def gapMinIntervals : ℕ := 4

/-- `SPREAD_MIN_INTERVALS`. -/
def spreadMinIntervals : ℕ := 3

/-- `Clock`. -/
inductive Clock where
  | wall (now : Int64)
  | newestStamp (stamp : Int64)
  deriving DecidableEq

/-- `PushStream`. -/
inductive PushStream where
  | observed
  | recorded
  | ringsAtRest
  | ringsUnderWriter
  deriving DecidableEq

/-- `EdgeStats`, as far as the checks here read it. -/
structure EdgeStats where
  edge : ℕ
  oldestStamp : Option Int64
  newestStamp : Option Int64
  negativeStamps : ℕ
  zeroStamps : ℕ
  deriving DecidableEq

/-- `Inputs`, as far as the checks here read it. -/
structure Inputs where
  snap : Snapshot
  stats : List EdgeStats
  obs : Observations
  clock : Clock
  stream : PushStream

namespace Clock

/-- `Clock::nanos` (lines 64–68). -/
def nanos : Clock → Int64
  | .wall n => n
  | .newestStamp n => n

/-- `Clock::decide` (lines 83–99). -/
def decide (newestStamps : List Int64) (systemUnixNanos : Int64) : Option Clock := do
  let distances ← newestStamps.mapM fun n => do
    let d ← i128 (n.toInt - systemUnixNanos.toInt)
    i128 |d|
  let agree := distances.countP fun d => d ≤ absurdHorizonNs
  if agree * 2 ≥ newestStamps.length then return .wall systemUnixNanos
  else
    let sorted := newestStamps.mergeSort fun a b => a.toInt ≤ b.toInt
    return .newestStamp (← sorted[sorted.length / 2]?)

end Clock

/-- `EdgeStats::retained_span_ns` (lines 135–140). -/
def EdgeStats.retainedSpanNs (st : EdgeStats) : Option (Option ℤ) :=
  match st.oldestStamp, st.newestStamp with
  | some o, some n => if n.toInt > o.toInt then (i64 (n.toInt - o.toInt)).map some else some none
  | _, _ => some none

/-- The finding of `tft005` on an edge whose stamp is `ahead` of the wall clock. -/
def aheadFinding (snap : Snapshot) (e : EdgeInfo) (ahead : ℤ) : TftFinding :=
  .onEdge .tft005 e.id (snap.edgeLabel e)
    s!"newest stamp is {ahead.tdiv 1000000} ms ahead of the wall clock (tolerance {
      futureToleranceNs.tdiv 1000000} ms)"

/-- One edge of `tft005` (lines 580–595). -/
def tft005Edge (snap : Snapshot) (now : Int64) (e : EdgeInfo) : Option (List TftFinding) :=
  match e.newestStamp with
  | none => some []
  | some newest => do
    let ahead ← i64 (newest.toInt - now.toInt)
    if ahead > futureToleranceNs then return [aheadFinding snap e ahead] else return []

/-- `tft005` (lines 570–598). -/
def tft005 (inp : Inputs) : Option CheckOutcome :=
  match inp.clock with
  | .newestStamp _ => some <| .skipped .tft005 <|
      "the arena's stamps do not share an epoch with the system clock (EdgeRecord::domain " ++
        "permits any time domain), so \"in the future\" has no meaning here"
  | .wall now => do
    let out ← inp.snap.edges.mapM (tft005Edge inp.snap now)
    return .ran .tft005 out.flatten

/-- One end of a window in `tft006` (lines 630–640). -/
def absurdReason (now : Int64) (what : String) (stamp : Option Int64) : Option (List String) :=
  match stamp with
  | none => some []
  | some s => do
    let d ← i128 (s.toInt - now.toInt)
    let dist ← i128 |d|
    if dist > absurdHorizonNs then
      return [s!"{what} retained stamp {s.toInt} is {dist.tdiv (24 * 3600 * 1000000000)
        } days from the reference clock"]
    else return []

/-- One edge of `tft006` (lines 606–655). -/
def tft006Edge (inp : Inputs) (st : EdgeStats) : Option (List TftFinding) :=
  let now := inp.clock.nanos
  let wall : Bool := match inp.clock with
    | .wall _ => true
    | .newestStamp _ => false
  match inp.snap.edgeIndex st.edge with
  | none => some []
  | some e => do
    let negative := if st.negativeStamps > 0 then
      [s!"{st.negativeStamps} retained stamp(s) are negative, which is invalid in every time " ++
        "domain"] else []
    let zero := if wall ∧ st.zeroStamps > 0 then
      [s!"{st.zeroStamps} retained stamp(s) are exactly 0; this arena's stamps are Unix time, " ++
        "so that is 1970 and means the field was never set"] else []
    let ends := ("newest", st.newestStamp) ::
      if st.oldestStamp ≠ st.newestStamp then [("oldest", st.oldestStamp)] else []
    let far ← ends.mapM fun x => absurdReason now x.1 x.2
    return (negative ++ zero ++ far.flatten).map
      (TftFinding.onEdge .tft006 st.edge (inp.snap.edgeLabel e))

/-- `tft006` (lines 601–657). -/
def tft006 (inp : Inputs) : Option CheckOutcome := do
  let out ← inp.stats.mapM (tft006Edge inp)
  return .ran .tft006 out.flatten

/-- `samples.windows(2)`. -/
def windows (samples : List PushSample) : List (PushSample × PushSample) :=
  samples.zip samples.tail

/-- `w[1].stamp_ns - w[0].stamp_ns`. -/
def step (w : PushSample × PushSample) : ℤ := w.2.stampNs.toInt - w.1.stampNs.toInt

/-- The middle of the sorted intervals, when it is a period. -/
def medianOf (intervals : List ℤ) : Option ℤ := do
  let sorted := intervals.mergeSort
  let median ← sorted[sorted.length / 2]?
  if median ≤ 0 then none else some median

/-- `median_period` (lines 821–835 of `doctor.rs`). -/
def medianPeriod (samples : List PushSample) : Option (Option ℤ) :=
  if samples.length < 2 then some none
  else do
    let intervals ← (windows samples).mapM fun w => i64 (step w)
    return medianOf intervals

/-- `IntervalShape`. -/
structure IntervalShape where
  medianNs : ℤ
  worstNs : ℤ
  deriving DecidableEq, Repr

/-- `ShapeGap`. -/
inductive ShapeGap where
  | tooFewIntervals
  | notMonotone
  | noPeriod
  deriving DecidableEq, Repr

/-- The loop of `interval_shape` (lines 886–893). -/
def scan : List (PushSample × PushSample) → ℤ → ℕ → Option (Except ShapeGap (ℤ × ℕ))
  | [], worst, intervals => some (.ok (worst, intervals))
  | w :: ws, worst, intervals => do
    let d ← i64 (step w)
    if d < 0 then return .error .notMonotone else scan ws (max worst d) (intervals + 1)

/-- `interval_shape` (lines 883–904). -/
def intervalShape (samples : List PushSample) : Option (Except ShapeGap IntervalShape) := do
  match ← scan (windows samples) (-2 ^ 63) 0 with
  | .error gap => return .error gap
  | .ok (worst, intervals) =>
    if intervals < gapMinIntervals then return .error .tooFewIntervals
    else
      match ← medianPeriod samples with
      | some medianNs => return .ok ⟨medianNs, worst⟩
      | none => return .error .noPeriod

/-- `Silence`. -/
structure Silence where
  silentNs : ℤ
  medianNs : ℤ
  deriving DecidableEq, Repr

/-- `live_wall_now` (lines 1040–1045). -/
def liveWallNow : Clock → PushStream → Option Int64
  | .wall now, .ringsUnderWriter => some now
  | _, _ => none

/-- What `stopped_publishers` says about one edge (lines 964–976). -/
def silenceOf (now : Int64) (shape : IntervalShape) (samples : List PushSample) : Option Silence :=
  let newest := (samples.getLast?.map fun s => s.stampNs.toInt).getD 0
  let silent := saturating (now.toInt - newest)
  if silent > saturating (shape.medianNs * gapFactor) then some ⟨silent, shape.medianNs⟩ else none

/-- One edge of `stopped_publishers` (lines 960–976). -/
def stoppedEdge (now : Int64) (x : ℕ × List PushSample) : Option (Option (ℕ × Silence)) := do
  match ← intervalShape x.2 with
  | .error _ => return none
  | .ok shape => return (silenceOf now shape x.2).map (x.1, ·)

/-- `stopped_publishers` (lines 951–979). -/
def stoppedPublishers (obs : Observations) (clock : Clock) (stream : PushStream) :
    Option (List (ℕ × Silence)) :=
  match liveWallNow clock stream with
  | none => some []
  | some now => do
    let out ← obs.byEdge.mapM (stoppedEdge now)
    return out.reduceOption

/-- `RateSpread`. -/
structure RateSpread where
  findings : List Finding
  judged : ℕ
  withheld : ℕ

/-- What `check_inconsistent_rates` does with the intervals of an edge (lines 642–669). -/
def RateSpread.judge (spread : RateSpread) (stopped : List ℕ) (edge : ℕ) (exact : List ℤ) :
    RateSpread :=
  let intervals := exact.map Float.ofInt
  if intervals.length < spreadMinIntervals then spread
  else
    let mean := intervals.foldl (· + ·) 0 / Float.ofNat intervals.length
    if mean ≤ 0 then spread
    else if edge ∈ stopped then { spread with withheld := spread.withheld + 1 }
    else
      let squares := intervals.map fun x => (x - mean) * (x - mean)
      let var := squares.foldl (· + ·) 0 / Float.ofNat intervals.length
      let cov := var.sqrt / mean
      { spread with
        judged := spread.judged + 1
        findings := spread.findings ++ if cov > 0.5 then
          [⟨.inconsistentRate, .warn, s!"edge#{edge} publishes at an inconsistent rate (CoV " ++
            s!"{fixed 2 cov}, mean period {fixed 1 (mean / 1000000.0)} ms)"⟩] else [] }

/-- `check_inconsistent_rates` (lines 635–676 of `doctor.rs`). -/
def checkInconsistentRates (obs : Observations) (stopped : List ℕ) : Option RateSpread :=
  obs.byEdge.foldlM (fun spread x => do
    let intervals ← (windows x.2).mapM fun w => i64 (step w)
    return spread.judge stopped x.1 intervals) ⟨[], 0, 0⟩

/-- `tft008` (lines 819–851). -/
def tft008 (inp : Inputs) : Option CheckOutcome := do
  let withheld ← stoppedPublishers inp.obs inp.clock inp.stream
  let spread ← checkInconsistentRates inp.obs (withheld.map Prod.fst)
  if spread.judged = 0 then
    return .skipped .tft008 <|
      if spread.withheld > 0 then
        "every edge with a measurable inter-arrival distribution has stopped publishing (" ++
          s!"{spread.withheld} of them): a stopped publisher leaves an evenly spaced ring, so " ++
          "its coefficient of variation is ~0 and a pass here would certify the cadence of a " ++
          "stream that is no longer arriving. TFT009 reports the silence"
      else
        s!"no edge in this arena has retained the {spreadMinIntervals} intervals an " ++
          "inter-arrival spread needs, so there is no distribution to call inconsistent; the " ++
          "publishers may not have started, or the arena was read too soon after bringup"
  else return .ran .tft008 (spread.findings.map fun f => .about .tft008 "edge" f.message)

/-- `gap_evidence_skip` (lines 907–939). -/
def gapEvidenceSkip (tooFew notMonotone noPeriod : ℕ) : String :=
  let why :=
    (if tooFew > 0 then
      [s!"{tooFew} retained fewer than the {gapMinIntervals} intervals a median needs, so the " ++
        "publishers may not have started or the ring is sized below that floor"] else []) ++
    (if notMonotone > 0 then
      [s!"{notMonotone} carry a stamp that goes backwards, and a gap measured across an " ++
        "inversion is a dropout that never happened — TFT018 is the id for that fault"] else []) ++
    (if noPeriod > 0 then
      [s!"{noPeriod} hold every retained stamp at one instant, so there is no period for a gap " ++
        "to be a multiple of"] else [])
  if why = [] then
    "nothing has published to any edge of this arena, so there is no inter-arrival distribution " ++
      "to call a gap in and no newest stamp to measure a silence from"
  else
    "no edge in this arena has a retained inter-arrival distribution, so there is no gap to " ++
      "call a dropout and nothing to measure a trailing silence against: " ++ "; ".intercalate why

/-- The gap finding of `tft009` on an edge. -/
def gapFinding (edge : ℕ) (shape : IntervalShape) : List TftFinding :=
  if shape.worstNs > saturating (shape.medianNs * gapFactor) then
    let worst := Float.ofInt shape.worstNs
    let median := Float.ofInt shape.medianNs
    [.onEdge .tft009 edge s!"edge#{edge}" <|
      s!"largest gap {fixed 1 (worst / 1e6)} ms is {fixed 1 (worst / median)}x the median " ++
        s!"period {fixed 1 (median / 1e6)} ms"]
  else []

/-- The silence finding of `tft009` on an edge. -/
def silenceFinding (edge : ℕ) (s : Silence) : TftFinding :=
  let silent := Float.ofInt s.silentNs
  let median := Float.ofInt s.medianNs
  .onEdge .tft009 edge s!"edge#{edge}" <|
    s!"no sample for {fixed 1 (silent / 1e9)} s, {fixed 1 (silent / median)}x the median " ++
      s!"period {fixed 1 (median / 1e6)} ms — its publisher has stopped, and every retained " ++
      "sample still reads healthy"

/-- `tft009` (lines 982–1036). -/
def tft009 (inp : Inputs) : Option CheckOutcome := do
  let stopped ← stoppedPublishers inp.obs inp.clock inp.stream
  let shapes ← inp.obs.byEdge.mapM fun x => do return (x.1, ← intervalShape x.2)
  let gaps (gap : ShapeGap) := shapes.countP fun
    | (_, .error gap') => gap' = gap
    | (_, .ok _) => false
  let judged := shapes.countP fun
    | (_, .error _) => false
    | (_, .ok _) => true
  let out := shapes.flatMap fun (edge, shape) =>
    (match shape with
      | .ok shape => gapFinding edge shape
      | .error _ => []) ++ ((stopped.lookup edge).map (silenceFinding edge)).toList
  if judged = 0 then
    return .skipped .tft009 (gapEvidenceSkip (gaps .tooFewIntervals) (gaps .notMonotone)
      (gaps .noPeriod))
  else return .ran .tft009 out

/-- One edge of `check_short_buffers` (lines 584–611 of `doctor.rs`). -/
def shortBuffer (snap : Snapshot) (obs : Observations) (e : EdgeInfo) : Option (List Finding) :=
  if e.kind ≠ .dynamic ∨ e.capacity = 0 then some []
  else
    match obs.byEdge.lookup e.id with
    | none => some []
    | some samples => do
      match ← medianPeriod samples with
      | none => return []
      | some period =>
        let maxLatency := ((samples.map fun s => s.arrivalDelayNs.toInt).max?).getD 0
        let span ← i128 ((e.capacity.toNat : ℤ) * period)
        if maxLatency > span then
          return [⟨.shortBuffer, .warn, s!"edge {snap.edgeLabel e} holds ~{span.tdiv 1000000
            } ms but publish latency reaches {maxLatency.tdiv 1000000} ms"⟩]
        else return []

/-- `check_short_buffers` (lines 581–613 of `doctor.rs`). -/
def checkShortBuffers (snap : Snapshot) (obs : Observations) : Option (List Finding) := do
  let out ← snap.edges.mapM (shortBuffer snap obs)
  return out.flatten

/-- `PublishActivity`. -/
inductive PublishActivity where
  | noPublisher
  | unmeasurable (largestHead : ℕ) (retainedCapacity : ℕ) (observed : ℕ)
  | running (ns : ℤ)
  deriving DecidableEq, Repr

/-- What `publish_activity` knows after some edges. -/
structure Activity where
  best : Option ℤ
  largestHead : ℕ
  retainedCapacity : ℕ
  observed : ℕ

/-- One edge of `publish_activity` (lines 1249–1266). -/
def Activity.edge (obs : Observations) (act : Activity) (e : EdgeInfo) : Option Activity :=
  if e.kind ≠ .dynamic ∨ e.head = 0 then some act
  else
    let act := { act with
      largestHead := max act.largestHead e.head.toNat
      retainedCapacity := max act.retainedCapacity (e.capacity.toNat - 1) }
    match obs.byEdge.lookup e.id with
    | none => some act
    | some samples => do
      let act := { act with observed := max act.observed samples.length }
      match ← medianPeriod samples with
      | none => return act
      | some period =>
        let span ← i128 (((e.head.toNat - 1 : ℕ) : ℤ) * period)
        let span := if Fits span then span else 2 ^ 63 - 1
        return { act with best := some (match act.best with
          | none => span
          | some b => max b span) }

/-- `publish_activity` (lines 1243–1276). -/
def publishActivity (inp : Inputs) : Option PublishActivity := do
  let act ← inp.snap.edges.foldlM (Activity.edge inp.obs) ⟨none, 0, 0, 0⟩
  match act.best, act.largestHead with
  | some span, _ => return .running span
  | none, 0 => return .noPublisher
  | none, largestHead => return .unmeasurable largestHead act.retainedCapacity act.observed

/-! ## Loops of fallible steps -/

section Loops

variable {α β : Type} {xs : List α}

theorem mapM_some {f : α → Option β} {g : α → β} (h : ∀ x ∈ xs, f x = some (g x)) :
    xs.mapM f = some (xs.map g) := by
  induction xs with
  | nil => rfl
  | cons x xs ih =>
    have htail : xs.mapM f = some (xs.map g) := ih fun y hy => h y (by simp [hy])
    simp [List.mapM_cons, h x (by simp), htail]

theorem mapM_ne_none {f : α → Option β} : xs.mapM f ≠ none ↔ ∀ x ∈ xs, f x ≠ none := by
  induction xs with
  | nil => simp
  | cons x xs ih =>
    rw [List.mapM_cons, List.forall_mem_cons, ← ih]
    cases f x with
    | none => simp
    | some y => cases xs.mapM f <;> simp

theorem foldlM_some {f : β → α → Option β} {g : β → α → β}
    (h : ∀ x ∈ xs, ∀ b, f b x = some (g b x)) (b : β) : xs.foldlM f b = some (xs.foldl g b) := by
  induction xs generalizing b with
  | nil => rfl
  | cons x xs ih =>
    rw [List.foldlM_cons, h x (by simp)]
    exact ih (fun y hy => h y (by simp [hy])) _

theorem foldlM_ne_none {f : β → α → Option β} (h : ∀ x ∈ xs, ∀ b, f b x ≠ none) (b : β) :
    xs.foldlM f b ≠ none := by
  induction xs generalizing b with
  | nil => simp
  | cons x xs ih =>
    obtain ⟨c, hc⟩ := Option.ne_none_iff_exists'.mp (h x (by simp) b)
    rw [List.foldlM_cons, hc]
    exact ih (fun y hy => h y (by simp [hy])) c

/-- A loop that comes to its end did every step. -/
theorem step_of_foldlM {f : β → α → Option β} {b : β} (h : xs.foldlM f b ≠ none) {x : α}
    (hx : x ∈ xs) : ∃ c, f c x ≠ none := by
  induction xs generalizing b with
  | nil => simp at hx
  | cons y xs ih =>
    rw [List.foldlM_cons] at h
    cases hy : f b y with
    | none => simp [hy] at h
    | some c =>
      rcases List.mem_cons.mp hx with rfl | hx
      · exact ⟨b, by simp [hy]⟩
      · rw [hy] at h
        exact ih h hx

end Loops

/-! ## Distances that fit -/

theorem i64_of_fits {z : ℤ} (h : Fits z) : i64 z = some z := if_pos h

theorem i64_ne_none {z : ℤ} : i64 z ≠ none ↔ Fits z := by
  unfold i64
  split_ifs with h <;> simp [h]

theorem i128_of_lt {z : ℤ} (h : |z| < 2 ^ 127) : i128 z = some z := by
  rw [abs_lt] at h
  exact if_pos ⟨by omega, h.2⟩

/-- Two stamps are less than `2 ^ 64` apart. -/
theorem abs_sub_lt (a b : Int64) : |a.toInt - b.toInt| < 2 ^ 64 := by
  have ha := a.le_toInt
  have ha' := a.toInt_lt
  have hb := b.le_toInt
  have hb' := b.toInt_lt
  rw [abs_lt]
  constructor <;> omega

theorem i128_sub (a b : Int64) : i128 (a.toInt - b.toInt) = some (a.toInt - b.toInt) := by
  have h := abs_sub_lt a b
  exact i128_of_lt (by omega)

theorem i128_abs_sub (a b : Int64) : i128 |a.toInt - b.toInt| = some |a.toInt - b.toInt| := by
  have h := abs_sub_lt a b
  apply i128_of_lt
  rw [abs_abs]
  omega

/-! ## The exact figures -/

/-- The distances between the neighbours of a stream. -/
def distances (samples : List PushSample) : List ℤ := (windows samples).map step

/-- The shape of a stream with these distances. -/
def shapeOf (ds : List ℤ) : Except ShapeGap IntervalShape :=
  if ∃ d ∈ ds, d < 0 then .error .notMonotone
  else if ds.length < gapMinIntervals then .error .tooFewIntervals
  else
    match medianOf ds with
    | some medianNs => .ok ⟨medianNs, ds.max?.getD 0⟩
    | none => .error .noPeriod

/-- The span between the ends of a window. -/
def spanOf (st : EdgeStats) : Option ℤ := do
  let o ← st.oldestStamp
  let n ← st.newestStamp
  if o.toInt < n.toInt then some (n.toInt - o.toInt) else none

/-- How far the newest stamp of an edge is ahead of `now`. -/
def aheadOf (now : Int64) (e : EdgeInfo) : Option ℤ :=
  e.newestStamp.map fun n => n.toInt - now.toInt

/-- The edge holds a stamp past the tolerance. -/
def Future (now : Int64) (e : EdgeInfo) : Prop := ∃ d ∈ aheadOf now e, futureToleranceNs < d

instance (now : Int64) (e : EdgeInfo) : Decidable (Future now e) :=
  inferInstanceAs (Decidable (∃ d ∈ aheadOf now e, _))

/-- No check overflows, and the figures are the exact distances. -/
structure Exact (inp : Inputs) : Prop where
  clock : ∀ stamps now, Clock.decide stamps now ≠ none
  future : ∃ outcome, tft005 inp = some outcome ∧ ∀ now, inp.clock = .wall now →
    outcome = .ran .tft005 ((inp.snap.edges.filter (Future now ·)).map fun e =>
      aheadFinding inp.snap e ((aheadOf now e).getD 0))
  absurd : tft006 inp ≠ none
  spans : ∀ st ∈ inp.stats, st.retainedSpanNs = some (spanOf st)
  periods : ∀ x ∈ inp.obs.byEdge, medianPeriod x.2 = some (medianOf (distances x.2))
  shapes : ∀ x ∈ inp.obs.byEdge, intervalShape x.2 = some (shapeOf (distances x.2))
  rates : ∀ stopped, checkInconsistentRates inp.obs stopped =
    some (inp.obs.byEdge.foldl (fun spread x => spread.judge stopped x.1 (distances x.2))
      ⟨[], 0, 0⟩)
  silences : stoppedPublishers inp.obs inp.clock inp.stream ≠ none
  spread : tft008 inp ≠ none
  gaps : tft009 inp ≠ none
  buffers : checkShortBuffers inp.snap inp.obs ≠ none
  activity : publishActivity inp ≠ none

/-- The stamps that are compared lie within 63 bits of each other. -/
structure Close (inp : Inputs) : Prop where
  wall : ∀ now, inp.clock = .wall now → ∀ e ∈ inp.snap.edges, ∀ n, e.newestStamp = some n →
    Fits (n.toInt - now.toInt)
  ends : ∀ st ∈ inp.stats, ∀ o n, st.oldestStamp = some o → st.newestStamp = some n →
    n.toInt - o.toInt < 2 ^ 63
  neighbours : ∀ x ∈ inp.obs.byEdge, ∀ w ∈ windows x.2,
    Fits (w.2.stampNs.toInt - w.1.stampNs.toInt)

/-! ## Streams -/

section Streams

variable {samples : List PushSample}

theorem mapM_step (h : ∀ w ∈ windows samples, Fits (step w)) :
    ((windows samples).mapM fun w => i64 (step w)) = some (distances samples) :=
  mapM_some fun w hw => i64_of_fits (h w hw)

theorem distances_of_lt (h : samples.length < 2) : distances samples = [] := by
  match samples, h with
  | [], _ => rfl
  | [_], _ => rfl

theorem medianPeriod_of_fits (h : ∀ w ∈ windows samples, Fits (step w)) :
    medianPeriod samples = some (medianOf (distances samples)) := by
  unfold medianPeriod
  split_ifs with hlen
  · simp [distances_of_lt hlen, medianOf]
  · rw [mapM_step h]
    rfl

theorem medianOf_spec {ds : List ℤ} {m : ℤ} (h : medianOf ds = some m) : m ∈ ds ∧ 0 < m := by
  unfold medianOf at h
  obtain ⟨median, hget, h⟩ := Option.bind_eq_some_iff.mp h
  split_ifs at h with hpos
  obtain rfl : median = m := by simpa using h
  exact ⟨List.mem_mergeSort.mp (List.mem_of_getElem? hget), by omega⟩

/-- The period of a stream is an `i64`. -/
theorem medianPeriod_bounds (h : ∀ w ∈ windows samples, Fits (step w)) {period : ℤ}
    (hp : medianPeriod samples = some (some period)) : 0 < period ∧ period < 2 ^ 63 := by
  rw [medianPeriod_of_fits h, Option.some.injEq] at hp
  obtain ⟨hmem, hpos⟩ := medianOf_spec hp
  obtain ⟨w, hw, rfl⟩ := List.mem_map.mp hmem
  exact ⟨hpos, (h w hw).2⟩

/-- The scan, on distances that fit. -/
theorem scan_of_fits {ws : List (PushSample × PushSample)} (h : ∀ w ∈ ws, Fits (step w))
    (worst : ℤ) (n : ℕ) :
    scan ws worst n = some (if ∃ d ∈ ws.map step, d < 0 then .error .notMonotone
      else .ok ((ws.map step).foldl max worst, n + ws.length)) := by
  induction ws generalizing worst n with
  | nil => simp [scan]
  | cons w ws ih =>
    rw [scan, i64_of_fits (h w (by simp))]
    by_cases hneg : step w < 0
    · simp [hneg]
    · have hrest := ih (fun v hv => h v (by simp [hv])) (max worst (step w)) (n + 1)
      simp only [Option.bind_eq_bind, Option.bind_some, hneg, if_false, hrest, List.map_cons,
        List.mem_cons, exists_eq_or_imp, false_or, List.foldl_cons, List.length_cons]
      split_ifs
      · rfl
      · rw [Nat.add_assoc, Nat.add_comm 1]

theorem foldl_max_eq {ds : List ℤ} {bottom : ℤ} (h : ∀ d ∈ ds, bottom ≤ d) (hne : ds ≠ []) :
    ds.foldl max bottom = ds.max?.getD 0 := by
  cases ds with
  | nil => exact absurd rfl hne
  | cons d ds =>
    rw [List.max?_cons', List.foldl_cons, max_eq_right (h d (by simp))]
    rfl

theorem intervalShape_of_fits (h : ∀ w ∈ windows samples, Fits (step w)) :
    intervalShape samples = some (shapeOf (distances samples)) := by
  unfold intervalShape
  rw [scan_of_fits h]
  unfold shapeOf
  rw [show (windows samples).map step = distances samples from rfl]
  by_cases hneg : ∃ d ∈ distances samples, d < 0
  · simp [hneg]
  · have hlen : (windows samples).length = (distances samples).length := by
      unfold distances
      rw [List.length_map]
    simp only [hneg, if_false, Option.bind_eq_bind, Option.bind_some, hlen, Nat.zero_add]
    by_cases hfew : (distances samples).length < gapMinIntervals
    · simp [hfew]
    · have hworst : (distances samples).foldl max (-2 ^ 63) = (distances samples).max?.getD 0 := by
        apply foldl_max_eq
        · intro d hd
          by_contra hlt
          exact hneg ⟨d, hd, by omega⟩
        · intro hnil
          simp [hnil, gapMinIntervals] at hfew
      simp only [hfew, if_false, medianPeriod_of_fits h, Option.bind_some, hworst]
      cases medianOf (distances samples) <;> rfl

end Streams

/-! ## The checks -/

variable {inp : Inputs}

theorem decide_ne_none (stamps : List Int64) (now : Int64) : Clock.decide stamps now ≠ none := by
  unfold Clock.decide
  have hloop : (stamps.mapM fun n => do
      let d ← i128 (n.toInt - now.toInt)
      i128 |d|) = some (stamps.map fun n => |n.toInt - now.toInt|) := by
    apply mapM_some
    intro n _
    rw [i128_sub]
    exact i128_abs_sub n now
  rw [hloop]
  simp only [Option.bind_eq_bind, Option.bind_some]
  split_ifs with hagree
  · simp
  · -- fewer than half of the stamps agree, so there is one
    have hpos : (stamps.mergeSort fun a b => decide (a.toInt ≤ b.toInt)).length / 2 <
        (stamps.mergeSort fun a b => decide (a.toInt ≤ b.toInt)).length := by
      rw [List.length_mergeSort]
      omega
    rw [List.getElem?_eq_getElem hpos]
    simp

theorem absurdReason_ne_none (now : Int64) (what : String) (stamp : Option Int64) :
    absurdReason now what stamp ≠ none := by
  unfold absurdReason
  cases stamp with
  | none => simp
  | some s =>
    simp only [i128_sub, i128_abs_sub, Option.bind_eq_bind, Option.bind_some]
    split_ifs <;> simp

theorem bind_ne_none {α β : Type} {x : Option α} {f : α → Option β} (hx : x ≠ none)
    (hf : ∀ a, x = some a → f a ≠ none) : (x >>= f) ≠ none := by
  obtain ⟨a, ha⟩ := Option.ne_none_iff_exists'.mp hx
  rw [ha]
  exact hf a ha

theorem tft006_ne_none (inp : Inputs) : tft006 inp ≠ none := by
  refine bind_ne_none (mapM_ne_none.mpr fun st _ => ?_) (fun out _ => by simp)
  unfold tft006Edge
  cases inp.snap.edgeIndex st.edge with
  | none => simp
  | some e =>
    exact bind_ne_none (mapM_ne_none.mpr fun x _ => absurdReason_ne_none _ _ _) fun far _ => by simp

/-- The check for future stamps, on distances that fit. -/
theorem tft005_of_fits {now : Int64} (hclock : inp.clock = .wall now)
    (h : ∀ e ∈ inp.snap.edges, ∀ n, e.newestStamp = some n → Fits (n.toInt - now.toInt)) :
    tft005 inp = some (.ran .tft005 ((inp.snap.edges.filter (Future now ·)).map fun e =>
      aheadFinding inp.snap e ((aheadOf now e).getD 0))) := by
  have hedge : ∀ e ∈ inp.snap.edges, tft005Edge inp.snap now e =
      some (if Future now e then [aheadFinding inp.snap e ((aheadOf now e).getD 0)] else []) := by
    intro e he
    unfold tft005Edge
    cases hn : e.newestStamp with
    | none => simp [Future, aheadOf, hn]
    | some n =>
      have hahead : aheadOf now e = some (n.toInt - now.toInt) := by simp [aheadOf, hn]
      have hfuture : Future now e ↔ n.toInt - now.toInt > futureToleranceNs := by
        simp [Future, hahead]
      by_cases hfar : n.toInt - now.toInt > futureToleranceNs
      · simp [i64_of_fits (h e he n hn), hfuture, hahead, hfar]
      · simp [i64_of_fits (h e he n hn), hfuture, hfar]
  have hflat : ∀ es : List EdgeInfo, (es.map fun e => if Future now e then
      [aheadFinding inp.snap e ((aheadOf now e).getD 0)] else []).flatten =
      (es.filter (Future now ·)).map fun e => aheadFinding inp.snap e ((aheadOf now e).getD 0) := by
    intro es
    induction es with
    | nil => rfl
    | cons e es ih => by_cases he : Future now e <;> simp [he, ih]
  unfold tft005
  rw [hclock]
  simp only [mapM_some hedge, Option.bind_eq_bind, Option.bind_some, hflat]
  rfl

theorem fits_of_tft005 {now : Int64} (hclock : inp.clock = .wall now) (h : tft005 inp ≠ none)
    {e : EdgeInfo} (he : e ∈ inp.snap.edges) {n : Int64} (hn : e.newestStamp = some n) :
    Fits (n.toInt - now.toInt) := by
  unfold tft005 at h
  rw [hclock] at h
  have hloop : inp.snap.edges.mapM (tft005Edge inp.snap now) ≠ none := by
    intro hnone
    simp [hnone] at h
  have hedge := mapM_ne_none.mp hloop e he
  rw [← i64_ne_none]
  intro hnone
  simp [tft005Edge, hn, hnone] at hedge

theorem retainedSpanNs_eq_iff (st : EdgeStats) :
    st.retainedSpanNs = some (spanOf st) ↔ ∀ o n, st.oldestStamp = some o →
      st.newestStamp = some n → n.toInt - o.toInt < 2 ^ 63 := by
  unfold EdgeStats.retainedSpanNs spanOf
  cases ho : st.oldestStamp with
  | none => simp
  | some o =>
    cases hn : st.newestStamp with
    | none => simp
    | some n =>
      have hfits : o.toInt < n.toInt → (Fits (n.toInt - o.toInt) ↔ n.toInt - o.toInt < 2 ^ 63) := by
        intro hlt
        exact ⟨And.right, fun h => ⟨by omega, h⟩⟩
      by_cases hlt : o.toInt < n.toInt
      · unfold i64
        simp [hlt, hfits hlt]
      · simp [hlt]
        omega

theorem checkInconsistentRates_of_fits (h : ∀ x ∈ inp.obs.byEdge, ∀ w ∈ windows x.2, Fits (step w))
    (stopped : List ℕ) : checkInconsistentRates inp.obs stopped =
      some (inp.obs.byEdge.foldl (fun spread x => spread.judge stopped x.1 (distances x.2))
        ⟨[], 0, 0⟩) := by
  apply foldlM_some
  intro x hx spread
  rw [mapM_step (h x hx)]
  rfl

theorem fits_of_checkInconsistentRates {stopped : List ℕ}
    (h : checkInconsistentRates inp.obs stopped ≠ none) {x : ℕ × List PushSample}
    (hx : x ∈ inp.obs.byEdge) : ∀ w ∈ windows x.2, Fits (step w) := by
  obtain ⟨spread, hstep⟩ := step_of_foldlM h hx
  have hloop : ((windows x.2).mapM fun w => i64 (step w)) ≠ none := by
    intro hnone
    simp [hnone] at hstep
  intro w hw
  exact i64_ne_none.mp (mapM_ne_none.mp hloop w hw)

section Fitting

variable (h : ∀ x ∈ inp.obs.byEdge, ∀ w ∈ windows x.2, Fits (step w))

include h

theorem stoppedPublishers_ne_none : stoppedPublishers inp.obs inp.clock inp.stream ≠ none := by
  unfold stoppedPublishers
  cases liveWallNow inp.clock inp.stream with
  | none => simp
  | some now =>
    refine bind_ne_none (mapM_ne_none.mpr fun x hx => ?_) fun out _ => by simp
    unfold stoppedEdge
    rw [intervalShape_of_fits (h x hx)]
    cases shapeOf (distances x.2) <;> simp

theorem tft008_ne_none : tft008 inp ≠ none := by
  refine bind_ne_none (stoppedPublishers_ne_none h) fun withheld _ => ?_
  rw [checkInconsistentRates_of_fits h]
  simp only [Option.bind_eq_bind, Option.bind_some]
  split_ifs <;> simp

theorem tft009_ne_none : tft009 inp ≠ none := by
  refine bind_ne_none (stoppedPublishers_ne_none h) fun stopped _ => ?_
  refine bind_ne_none (mapM_ne_none.mpr fun x hx => ?_) fun shapes _ => ?_
  · simp [intervalShape_of_fits (h x hx)]
  · dsimp only
    split_ifs <;> simp

theorem mem_byEdge_of_lookup {id : ℕ} {samples : List PushSample}
    (hlook : inp.obs.byEdge.lookup id = some samples) :
    ∀ w ∈ windows samples, Fits (step w) := by
  obtain ⟨before, after, hsplit, -⟩ := List.lookup_eq_some_iff.mp hlook
  exact h (id, samples) (by simp [hsplit])

/-- A period times a 64-bit count fits 128 bits. -/
theorem i128_mul_period {id : ℕ} {samples : List PushSample}
    (hlook : inp.obs.byEdge.lookup id = some samples) {period : ℤ}
    (hp : medianPeriod samples = some (some period)) {n : ℕ} (hn : n < 2 ^ 64) :
    i128 (n * period) = some (n * period) := by
  obtain ⟨hpos, hlt⟩ := medianPeriod_bounds (mem_byEdge_of_lookup h hlook) hp
  apply i128_of_lt
  have hmul : (n : ℤ) * period < 2 ^ 64 * 2 ^ 63 := by
    apply mul_lt_mul'' (by exact_mod_cast hn) hlt (by omega) hpos.le
  rw [abs_of_nonneg (by positivity)]
  omega

theorem checkShortBuffers_ne_none : checkShortBuffers inp.snap inp.obs ≠ none := by
  refine bind_ne_none (mapM_ne_none.mpr fun e _ => ?_) fun out _ => by simp
  unfold shortBuffer
  split_ifs with hskip
  · simp
  · cases hlook : inp.obs.byEdge.lookup e.id with
    | none => simp
    | some samples =>
      have hfits := mem_byEdge_of_lookup h hlook
      refine bind_ne_none (by simp [medianPeriod_of_fits hfits]) fun period hp => ?_
      cases period with
      | none => simp
      | some period =>
        have hcap : e.capacity.toNat < 2 ^ 64 := by
          have hlt := e.capacity.toNat_lt
          omega
        simp only [i128_mul_period h hlook hp hcap, Option.bind_eq_bind, Option.bind_some]
        split_ifs <;> simp

theorem publishActivity_ne_none : publishActivity inp ≠ none := by
  refine bind_ne_none (foldlM_ne_none (fun e _ act => ?_) _) fun act _ => ?_
  · unfold Activity.edge
    split_ifs with hskip
    · simp
    · cases hlook : inp.obs.byEdge.lookup e.id with
      | none => simp
      | some samples =>
        have hfits := mem_byEdge_of_lookup h hlook
        refine bind_ne_none (by simp [medianPeriod_of_fits hfits]) fun period hp => ?_
        cases period with
        | none => simp
        | some period =>
          have hhead : e.head.toNat - 1 < 2 ^ 64 := by
            have hlt := e.head.toNat_lt
            omega
          simp only [i128_mul_period h hlook hp hhead, Option.bind_eq_bind, Option.bind_some]
          simp
  · split <;> simp

end Fitting

/-- The checks overflow nowhere and report exact figures exactly when the stamps they compare are
    close. -/
theorem time_checks_exact_iff (inp : Inputs) : Exact inp ↔ Close inp := by
  constructor
  · intro h
    refine ⟨fun now hclock e he n hn => ?_, fun st hst => ?_, fun x hx => ?_⟩
    · obtain ⟨outcome, hsome, -⟩ := h.future
      exact fits_of_tft005 hclock (by simp [hsome]) he hn
    · exact (retainedSpanNs_eq_iff st).mp (h.spans st hst)
    · have hrates : checkInconsistentRates inp.obs [] ≠ none := by simp [h.rates]
      exact fits_of_checkInconsistentRates hrates hx
  · intro h
    have hfits : ∀ x ∈ inp.obs.byEdge, ∀ w ∈ windows x.2, Fits (step w) := h.neighbours
    exact {
      clock := decide_ne_none
      future := by
        cases hclock : inp.clock with
        | wall now =>
          refine ⟨_, tft005_of_fits hclock (h.wall now hclock), ?_⟩
          rintro now' ⟨rfl⟩
          rfl
        | newestStamp stamp =>
          have hskip : ∃ outcome, tft005 inp = some outcome := by
            unfold tft005
            rw [hclock]
            exact ⟨_, rfl⟩
          obtain ⟨outcome, hsome⟩ := hskip
          exact ⟨outcome, hsome, nofun⟩
      absurd := tft006_ne_none inp
      spans := fun st hst => (retainedSpanNs_eq_iff st).mpr (h.ends st hst)
      periods := fun x hx => medianPeriod_of_fits (hfits x hx)
      shapes := fun x hx => intervalShape_of_fits (hfits x hx)
      rates := checkInconsistentRates_of_fits hfits
      silences := stoppedPublishers_ne_none hfits
      spread := tft008_ne_none hfits
      gaps := tft009_ne_none hfits
      buffers := checkShortBuffers_ne_none hfits
      activity := publishActivity_ne_none hfits }

/-- One edge of an arena holds the least stamp there is, the other one that of the wall clock. -/
def leastStamp : Inputs where
  snap := ⟨[⟨1, "map", 0⟩, ⟨2, "odom", 1⟩, ⟨3, "base", 2⟩],
    [⟨1, 1, 2, .dynamic, 4, 1, some Int64.minValue⟩,
      ⟨2, 2, 3, .dynamic, 4, 1, some 1700000000000000000⟩]⟩
  stats := [⟨1, some Int64.minValue, some Int64.minValue, 1, 0⟩,
    ⟨2, some 1700000000000000000, some 1700000000000000000, 0, 0⟩]
  obs := ⟨[⟨1, Int64.minValue, 0⟩, ⟨2, 1700000000000000000, 0⟩]⟩
  clock := .wall 1700000000000000000
  stream := .ringsUnderWriter

/-- The wall clock is taken, and the distance of the first edge to it overflows. -/
theorem leastStamp_overflows :
    Clock.decide (leastStamp.snap.edges.filterMap EdgeInfo.newestStamp) 1700000000000000000 =
      some leastStamp.clock ∧
    tft005 leastStamp = none ∧ ¬ Exact leastStamp := by
  have hnone : tft005 leastStamp = none := by decide
  refine ⟨by decide, hnone, fun h => ?_⟩
  obtain ⟨outcome, hsome, -⟩ := h.future
  simp [hnone] at hsome

end TfTree.Doctor
