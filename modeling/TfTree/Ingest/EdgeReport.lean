import Mathlib
import TfTree.Ingest.Survey

/-!
# What a survey reports of one edge

The abstract side of the survey: the records of one edge, whether they are admissible, and the
report that they add up to. An edge is admissible if all its records are static, or if none is
and its clock never steps back by the threshold.

Results:
* `observe_clock`: the clock of an edge takes a stamp exactly if the stamps stay steady.
* `Entry.Of.observe`: one more record is taken exactly if the records stay admissible, and the
  entry adds them up.
-/

namespace TfTree.Offline

open Data Mcap Bridge

variable {F : Type}

/-! ## The records of an edge -/

/-- The stamp of a record. -/
def stampOf (rec : RawRecord F) : ℤ := rec.stampNs.toInt

/-- A record that is a sample: dynamic, with a stamp. -/
def isSample (rec : RawRecord F) : Bool := !rec.isStatic && stampOf rec != 0

/-- The stamps of the samples. -/
def sampleStamps (recs : List (RawRecord F)) : List ℤ := (recs.filter isSample).map stampOf

/-- A sample far in the future. -/
def isFuture (opts : IngestOptions) (rec : RawRecord F) : Bool :=
  isSample rec && satSub (stampOf rec) rec.logTimeNs > opts.futureHorizonNs

/-- How far the stamps are in the future at worst. -/
def worstAhead (opts : IngestOptions) (recs : List (RawRecord F)) : ℤ :=
  ((recs.filter (isFuture opts)).map fun rec => satSub (stampOf rec) rec.logTimeNs).foldl max 0

/-- The stamps that come behind a later one. -/
def lateCount (stamps : List ℤ) : ℕ :=
  (List.range stamps.length).countP fun i => (stamps.take i).any fun t => stamps.getD i 0 < t

/-- The static records that contradict the first one. -/
def conflictCount [Floats F] (recs : List (RawRecord F)) : ℕ :=
  match recs.filter (·.isStatic) with
  | [] => 0
  | first :: rest => rest.countP fun rec =>
      !samePose (Vector.ofFn first.pose) (Vector.ofFn rec.pose)

/-- The clock never steps back by the threshold. -/
def Steady (opts : IngestOptions) (stamps : List ℤ) : Prop :=
  stamps.Pairwise fun a b => a ≤ b ∨ satSub a b < max opts.clockResetThresholdNs 0

/-- The records of an edge that a survey takes. -/
structure Admissible (opts : IngestOptions) (recs : List (RawRecord F)) : Prop where
  kind : (∀ rec ∈ recs, rec.isStatic = true) ∨ ∀ rec ∈ recs, rec.isStatic = false
  steady : Steady opts (sampleStamps recs)

/-- What a row says of the records of its edge. -/
structure Reports (recs : List (RawRecord F)) (row : SurveyRow F) : Prop where
  topic : ∀ first ∈ recs.head?, row.topic = first.topic
  staticPose : row.staticPose = (recs.find? (·.isStatic)).map (·.pose)
  samples : row.samples = (recs.filter isSample).length
  oldest : row.sourceOldestNs = (sampleStamps recs).min?
  newest : row.sourceNewestNs = (sampleStamps recs).max?

/-! ## The entry of an edge -/

/-- What the survey keeps for an edge: its row, the static pose on file with its topic, and
its share of the anomalies. -/
structure Entry (F : Type) where
  row : SurveyRow F
  onFile : Option (PoseWords F × String)
  anomalies : Anomalies

/-- A record on the entry of its edge. -/
def Entry.observe [Floats F] (opts : IngestOptions) (entry : Option (Entry F))
    (rec : RawRecord F) : Except DynamicFault (Option (Entry F)) :=
  let e := entry.getD ⟨.fresh opts rec.topic, none, .default⟩
  if rec.isStatic then
    if e.row.dynamicSeen then .error .kindChanged
    else
      match e.onFile with
      | none => .ok (some { e with
          row.staticPose := some rec.pose
          onFile := some (Vector.ofFn rec.pose, rec.topic) })
      | some (existing, _) =>
        if samePose existing (Vector.ofFn rec.pose) then .ok (some e)
        else .ok (some { e with
          anomalies.staticConflicts := e.anomalies.staticConflicts + 1 })
  else
    (e.row.observeDynamic opts rec e.anomalies).map fun (row, anomalies) =>
      some { e with row := row, anomalies := anomalies }

/-- The entry adds up the records of its edge. -/
structure Entry.Sums [Floats F] (opts : IngestOptions) (recs : List (RawRecord F))
    (e : Entry F) : Prop where
  reports : Reports recs e.row
  clock : e.row.clock.newest = (sampleStamps recs).max?
  threshold : e.row.clock.thresholdNanos = max opts.clockResetThresholdNs 0
  dynamicSeen : e.row.dynamicSeen = recs.any fun rec => !rec.isStatic
  onFile : e.onFile = (recs.find? (·.isStatic)).map fun rec => (Vector.ofFn rec.pose, rec.topic)
  zeroStampDrops : e.anomalies.zeroStampDrops =
    recs.countP fun rec => !rec.isStatic && stampOf rec == 0
  futureStamps : e.anomalies.futureStamps = recs.countP (isFuture opts)
  worst : e.anomalies.worstFutureOffsetNs = worstAhead opts recs
  outOfOrder : e.anomalies.outOfOrder = lateCount (sampleStamps recs)
  staticConflicts : e.anomalies.staticConflicts = conflictCount recs
  emptyNames : e.anomalies.emptyNames = 0

/-! ## One more record -/

section Concat

variable {recs : List (RawRecord F)} {rec : RawRecord F} {stamps : List ℤ} {t : ℤ}

theorem min?_concat (ts : List ℤ) (t : ℤ) : (ts ++ [t]).min? = some (match ts.min? with
    | some v => min v t
    | none => t) := by
  cases ts with
  | nil => rfl
  | cons a ts =>
    rw [List.cons_append, List.min?_cons', List.min?_cons', List.foldl_append]
    rfl

theorem max?_concat (ts : List ℤ) (t : ℤ) : (ts ++ [t]).max? = some (match ts.max? with
    | some v => max v t
    | none => t) := by
  cases ts with
  | nil => rfl
  | cons a ts =>
    rw [List.cons_append, List.max?_cons', List.max?_cons', List.foldl_append]
    rfl

theorem sampleStamps_concat : sampleStamps (recs ++ [rec]) =
    sampleStamps recs ++ if isSample rec then [stampOf rec] else [] := by
  unfold sampleStamps
  rw [List.filter_append, List.map_append]
  by_cases h : isSample rec = true
  · rw [List.filter_cons_of_pos h, if_pos h]
    rfl
  · rw [List.filter_cons_of_neg h, if_neg h]
    rfl

theorem lateCount_concat : lateCount (stamps ++ [t]) =
    lateCount stamps + if stamps.any fun a => t < a then 1 else 0 := by
  unfold lateCount
  rw [List.length_append, List.length_singleton, List.range_succ, List.countP_append,
    List.countP_singleton, List.take_left, List.getD_append_right _ _ _ _ le_rfl, Nat.sub_self]
  congr 1
  refine List.countP_congr fun i hi => ?_
  have hlt := List.mem_range.mp hi
  rw [List.take_append_of_le_length hlt.le, List.getD_append _ _ _ _ hlt]

theorem worstAhead_concat (opts : IngestOptions) : worstAhead opts (recs ++ [rec]) =
    if isFuture opts rec then max (worstAhead opts recs) (satSub (stampOf rec) rec.logTimeNs)
    else worstAhead opts recs := by
  unfold worstAhead
  rw [List.filter_append, List.map_append, List.foldl_append]
  by_cases h : isFuture opts rec = true
  · rw [List.filter_cons_of_pos h, if_pos h]
    rfl
  · rw [List.filter_cons_of_neg h, if_neg h]
    rfl

theorem steady_concat {opts : IngestOptions} : Steady opts (stamps ++ [t]) ↔ Steady opts stamps ∧
    ∀ a ∈ stamps, a ≤ t ∨ satSub a t < max opts.clockResetThresholdNs 0 := by
  unfold Steady
  rw [List.pairwise_append]
  simp

theorem satSub_mono {a b : ℤ} (h : a ≤ b) (t : ℤ) : satSub a t ≤ satSub b t := by
  unfold satSub clampI64
  omega

end Concat

/-! ## A dynamic record -/

section Dynamic

variable {opts : IngestOptions} {row : SurveyRow F} {rec : RawRecord F} {stamps : List ℤ}

/-- Whether a later stamp came before. -/
theorem any_lt_iff {newest t : ℤ} (h : stamps.max? = some newest) :
    (stamps.any fun a => t < a) = decide (t < newest) := by
  obtain ⟨hmem, hle⟩ := List.max?_eq_some_iff.mp h
  rw [Bool.eq_iff_iff, List.any_eq_true, decide_eq_true_iff]
  constructor
  · rintro ⟨a, ha, hlt⟩
    exact (of_decide_eq_true hlt).trans_le (hle a ha)
  · exact fun hlt => ⟨newest, hmem, decide_eq_true hlt⟩

/-- The clock of an edge behind the stamps of its samples: a stamp is taken exactly if the
stamps stay steady, and it is late if a later one came before. -/
theorem observe_clock {clock : ClockGuard} (hnew : clock.newest = stamps.max?)
    (hthr : clock.thresholdNanos = max opts.clockResetThresholdNs 0) (t : ℤ) :
    (∃ by_, (clock.observe t).1 = .reset by_ clock.policy ∧
      ¬ ∀ a ∈ stamps, a ≤ t ∨ satSub a t < max opts.clockResetThresholdNs 0) ∨
    ((∀ a ∈ stamps, a ≤ t ∨ satSub a t < max opts.clockResetThresholdNs 0) ∧
      (clock.observe t).2.newest = (stamps ++ [t]).max? ∧
      (clock.observe t).2.thresholdNanos = clock.thresholdNanos ∧
      ((clock.observe t).1 = .forward ∧ (stamps.any fun a => t < a) = false ∨
        (∃ by_, (clock.observe t).1 = .jitter by_) ∧ (stamps.any fun a => t < a) = true)) := by
  rw [max?_concat]
  cases hmax : stamps.max? with
  | none =>
    obtain rfl := List.max?_eq_none_iff.mp hmax
    rw [hmax] at hnew
    have hobserve : clock.observe t = (.forward, { clock with newest := some t }) := by
      unfold ClockGuard.observe
      rw [hnew]
    rw [hobserve]
    exact .inr ⟨List.forall_mem_nil _, rfl, rfl, .inl ⟨rfl, rfl⟩⟩
  | some newest =>
    rw [hmax] at hnew
    obtain ⟨hmem, hle⟩ := List.max?_eq_some_iff.mp hmax
    rw [any_lt_iff hmax]
    unfold ClockGuard.observe
    rw [hnew]
    dsimp only
    by_cases hge : t ≥ newest
    · rw [if_pos hge]
      refine .inr ⟨fun a ha => .inl ((hle a ha).trans hge), ?_, rfl, .inl ⟨rfl, ?_⟩⟩
      · rw [max_eq_right hge]
      · exact decide_eq_false (not_lt.mpr hge)
    · rw [if_neg hge]
      by_cases hjitter : satSub newest t < clock.thresholdNanos
      · rw [if_pos hjitter]
        refine .inr ⟨fun a ha => .inr ?_, ?_, rfl, .inr ⟨⟨_, rfl⟩, ?_⟩⟩
        · rw [← hthr]
          exact (satSub_mono (hle a ha) t).trans_lt hjitter
        · rw [max_eq_left (not_le.mp hge).le]
        · exact decide_eq_true (not_le.mp hge)
      · rw [if_neg hjitter]
        refine .inl ⟨_, rfl, fun h => ?_⟩
        rcases h newest hmem with h | h
        · exact hge h
        · rw [← hthr] at h
          exact hjitter h

end Dynamic

/-! ## One more record on the report -/

section Report

variable {opts : IngestOptions} {recs : List (RawRecord F)} {rec : RawRecord F}

/-- The report of one more record. -/
theorem Reports.concat {row row' : SurveyRow F} (h : Reports recs row)
    (htopic : row'.topic = row.topic) (hfirst : recs = [] → row.topic = rec.topic)
    (hpose : row'.staticPose = row.staticPose.or (if rec.isStatic then some rec.pose else none))
    (hcount : (row'.samples, row'.sourceOldestNs, row'.sourceNewestNs) =
      if isSample rec then
        ((row.count (stampOf rec)).samples, (row.count (stampOf rec)).sourceOldestNs,
          (row.count (stampOf rec)).sourceNewestNs)
      else (row.samples, row.sourceOldestNs, row.sourceNewestNs)) :
    Reports (recs ++ [rec]) row' where
  topic := by
    intro first hmem
    rw [htopic]
    cases recs with
    | nil =>
      cases hmem
      exact hfirst rfl
    | cons r recs => exact h.topic first hmem
  staticPose := by
    rw [hpose, h.staticPose, List.find?_append]
    cases recs.find? (·.isStatic) with
    | some first => rfl
    | none =>
      by_cases hstatic : rec.isStatic = true
      · simp [hstatic]
      · simp [hstatic]
  samples := by
    rw [List.filter_append, List.length_append, ← h.samples]
    by_cases hsample : isSample rec = true
    · rw [if_pos hsample] at hcount
      rw [List.filter_cons_of_pos hsample]
      exact congrArg Prod.fst hcount
    · rw [if_neg hsample] at hcount
      rw [List.filter_cons_of_neg hsample]
      exact congrArg Prod.fst hcount
  oldest := by
    rw [sampleStamps_concat]
    by_cases hsample : isSample rec = true
    · rw [if_pos hsample] at hcount ⊢
      rw [min?_concat, ← h.oldest]
      exact congrArg (fun x => x.2.1) hcount
    · rw [if_neg hsample] at hcount ⊢
      rw [List.append_nil, ← h.oldest]
      exact congrArg (fun x => x.2.1) hcount
  newest := by
    rw [sampleStamps_concat]
    by_cases hsample : isSample rec = true
    · rw [if_pos hsample] at hcount ⊢
      rw [max?_concat, ← h.newest]
      exact congrArg (fun x => x.2.2) hcount
    · rw [if_neg hsample] at hcount ⊢
      rw [List.append_nil, ← h.newest]
      exact congrArg (fun x => x.2.2) hcount

theorem admissible_nil : Admissible opts ([] : List (RawRecord F)) :=
  ⟨.inl (List.forall_mem_nil _), List.Pairwise.nil⟩

/-- A record of the same kind. -/
theorem admissible_concat
    (hkind : (∀ r ∈ recs, r.isStatic = rec.isStatic))
    (hsteady : Steady opts (sampleStamps (recs ++ [rec]))) : Admissible opts (recs ++ [rec]) := by
  refine ⟨?_, hsteady⟩
  have hall : ∀ r ∈ recs ++ [rec], r.isStatic = rec.isStatic := by
    intro r hr
    rcases List.mem_append.mp hr with hr | hr
    · exact hkind r hr
    · rw [List.mem_singleton.mp hr]
  cases hrec : rec.isStatic with
  | true => exact .inl (hrec ▸ hall)
  | false => exact .inr (hrec ▸ hall)

/-- A record of the other kind. -/
theorem not_admissible_of_kind {r : RawRecord F} (hr : r ∈ recs)
    (hne : r.isStatic ≠ rec.isStatic) : ¬ Admissible opts (recs ++ [rec]) := by
  rintro ⟨hkind | hkind, -⟩
  · exact hne ((hkind r (List.mem_append_left _ hr)).trans (hkind rec (by simp)).symm)
  · exact hne ((hkind r (List.mem_append_left _ hr)).trans (hkind rec (by simp)).symm)

theorem Admissible.of_append {more : List (RawRecord F)} (h : Admissible opts (recs ++ more)) :
    Admissible opts recs := by
  refine ⟨h.kind.imp (fun hk r hr => hk r (List.mem_append_left _ hr))
    (fun hk r hr => hk r (List.mem_append_left _ hr)), ?_⟩
  have hsteady := h.steady
  unfold sampleStamps Steady at hsteady
  rw [List.filter_append, List.map_append, List.pairwise_append] at hsteady
  exact hsteady.1

end Report

/-! ## One more record on the entry -/

section Step

variable [Floats F] {opts : IngestOptions} {recs : List (RawRecord F)} {rec : RawRecord F}
  {e : Entry F}

/-- The entry of an edge before its first record. -/
def Entry.fresh (opts : IngestOptions) (topic : String) : Entry F :=
  ⟨.fresh opts topic, none, .default⟩

/-- An edge without records has a fresh entry. -/
theorem Entry.observe_getD (entry : Option (Entry F)) : Entry.observe opts entry rec =
    Entry.observe opts (some (entry.getD (.fresh opts rec.topic))) rec := by
  cases entry with
  | none => rfl
  | some e => rfl

/-- A static record on an entry. -/
theorem Entry.observe_eq_static (hstatic : rec.isStatic = true) :
    Entry.observe opts (some e) rec =
      if e.row.dynamicSeen then .error .kindChanged
      else
        match e.onFile with
        | none => .ok (some { e with
            row.staticPose := some rec.pose
            onFile := some (Vector.ofFn rec.pose, rec.topic) })
        | some (existing, _) =>
          if samePose existing (Vector.ofFn rec.pose) then .ok (some e)
          else .ok (some { e with
            anomalies.staticConflicts := e.anomalies.staticConflicts + 1 }) := by
  unfold Entry.observe
  rw [if_pos hstatic]
  rfl

/-- A dynamic record on an entry. -/
theorem Entry.observe_eq_dynamic (hdynamic : rec.isStatic = false) :
    Entry.observe opts (some e) rec =
      (e.row.observeDynamic opts rec e.anomalies).map fun r =>
        some { e with row := r.1, anomalies := r.2 } := by
  unfold Entry.observe
  rw [if_neg (by simp [hdynamic])]
  rfl

theorem Entry.sums_fresh (opts : IngestOptions) (topic : String) :
    (Entry.fresh opts topic : Entry F).Sums opts [] where
  reports := ⟨by simp, rfl, rfl, rfl, rfl⟩
  clock := rfl
  threshold := rfl
  dynamicSeen := rfl
  onFile := rfl
  zeroStampDrops := rfl
  futureStamps := rfl
  worst := rfl
  outOfOrder := rfl
  staticConflicts := rfl
  emptyNames := rfl

theorem conflictCount_concat : conflictCount (recs ++ [rec]) = conflictCount recs +
    if rec.isStatic ∧ ∃ first, recs.find? (·.isStatic) = some first ∧
      samePose (Vector.ofFn first.pose) (Vector.ofFn rec.pose) = false then 1 else 0 := by
  unfold conflictCount
  rw [List.filter_append, ← List.head?_filter]
  by_cases hstatic : rec.isStatic = true
  · rw [List.filter_cons_of_pos hstatic, List.filter_nil]
    cases recs.filter (·.isStatic) with
    | nil => simp
    | cons first rest =>
      show (rest ++ [rec]).countP _ = _
      rw [List.countP_append, List.countP_singleton]
      simp [hstatic]
  · rw [List.filter_cons_of_neg hstatic, List.filter_nil, List.append_nil, if_neg]
    · rfl
    · rintro ⟨h, -⟩
      exact hstatic h

omit [Floats F] in
theorem sampleStamps_concat_static (hstatic : rec.isStatic = true) :
    sampleStamps (recs ++ [rec]) = sampleStamps recs := by
  rw [sampleStamps_concat, show isSample rec = false by simp [isSample, hstatic]]
  simp

/-- The sums with a static record behind. -/
theorem Entry.Sums.concat_static (h : e.Sums opts recs)
    (hfirst : recs = [] → e.row.topic = rec.topic) (hstatic : rec.isStatic = true) {e' : Entry F}
    (hrow : e'.row = { e.row with staticPose := e.row.staticPose.or (some rec.pose) })
    (hfile : e'.onFile = e.onFile.or (some (Vector.ofFn rec.pose, rec.topic)))
    (hanom : e'.anomalies = { e.anomalies with staticConflicts := conflictCount (recs ++ [rec]) }) :
    e'.Sums opts (recs ++ [rec]) := by
  have hsample : isSample rec = false := by simp [isSample, hstatic]
  have hstamps : sampleStamps (recs ++ [rec]) = sampleStamps recs :=
    sampleStamps_concat_static hstatic
  have hfuture : isFuture opts rec = false := by simp [isFuture, hsample]
  refine ⟨h.reports.concat (by rw [hrow]) hfirst (by rw [hrow, hstatic]; rfl) ?_, ?_, ?_, ?_,
    ?_, ?_, ?_, ?_, ?_, ?_, ?_⟩
  · rw [hrow, hsample]
    rfl
  · rw [hrow, hstamps]
    exact h.clock
  · rw [hrow]
    exact h.threshold
  · rw [hrow, List.any_append, ← h.dynamicSeen]
    simp [hstatic]
  · rw [hfile, h.onFile, List.find?_append]
    cases recs.find? (·.isStatic) with
    | some first => rfl
    | none => simp [hstatic]
  · rw [hanom, List.countP_append, ← h.zeroStampDrops]
    simp [hstatic]
  · rw [hanom, List.countP_append, ← h.futureStamps]
    simp [hfuture]
  · rw [hanom, worstAhead_concat, hfuture]
    exact h.worst
  · rw [hanom, hstamps]
    exact h.outOfOrder
  · rw [hanom]
  · rw [hanom]
    exact h.emptyNames

/-- A static record is taken exactly if no dynamic one came before. -/
theorem Entry.Sums.observe_static (h : e.Sums opts recs) (hadm : Admissible opts recs)
    (hfirst : recs = [] → e.row.topic = rec.topic) (hstatic : rec.isStatic = true) :
    (∃ e', Entry.observe opts (some e) rec = .ok (some e') ∧ Admissible opts (recs ++ [rec]) ∧
      e'.Sums opts (recs ++ [rec])) ∨
    (∃ fault, Entry.observe opts (some e) rec = .error fault ∧
      ¬ Admissible opts (recs ++ [rec])) := by
  rw [Entry.observe_eq_static hstatic]
  by_cases hseen : e.row.dynamicSeen = true
  · -- a dynamic record came before
    obtain ⟨r, hr, hdynamic⟩ := List.any_eq_true.mp (h.dynamicSeen.symm.trans hseen)
    rw [if_pos hseen]
    refine .inr ⟨_, rfl, not_admissible_of_kind hr ?_⟩
    simpa [hstatic] using hdynamic
  · rw [if_neg hseen]
    have hkind : ∀ r ∈ recs, r.isStatic = rec.isStatic := by
      intro r hr
      have hany :=
        List.any_eq_false.mp (h.dynamicSeen.symm.trans (Bool.eq_false_iff.mpr hseen)) r hr
      simpa [hstatic] using hany
    have hadm' : Admissible opts (recs ++ [rec]) :=
      admissible_concat hkind (by rw [sampleStamps_concat_static hstatic]; exact hadm.steady)
    refine .inl ?_
    cases hfile : e.onFile with
    | none =>
      have hnone : recs.find? (·.isStatic) = none :=
        Option.map_eq_none_iff.mp (h.onFile.symm.trans hfile)
      refine ⟨_, rfl, hadm', h.concat_static hfirst hstatic ?_ ?_ ?_⟩
      · rw [h.reports.staticPose, hnone]
        rfl
      · rw [hfile]
        rfl
      · rw [conflictCount_concat, if_neg (by simp [hnone]), ← h.staticConflicts]
        rfl
    | some file =>
      obtain ⟨first, hsome, hpair⟩ := Option.map_eq_some_iff.mp (h.onFile.symm.trans hfile)
      obtain rfl : (Vector.ofFn first.pose, first.topic) = file := hpair
      have hpose : e.row.staticPose.or (some rec.pose) = e.row.staticPose := by
        rw [h.reports.staticPose, hsome]
        rfl
      dsimp only
      by_cases hsame : samePose (Vector.ofFn first.pose) (Vector.ofFn rec.pose) = true
      · rw [if_pos hsame]
        refine ⟨e, rfl, hadm', h.concat_static hfirst hstatic ?_ ?_ ?_⟩
        · rw [hpose]
        · rw [hfile]
          rfl
        · rw [conflictCount_concat, if_neg (by simp [hsome, hsame]), ← h.staticConflicts]
          rfl
      · rw [if_neg hsame]
        refine ⟨_, rfl, hadm', h.concat_static hfirst hstatic ?_ ?_ ?_⟩
        · rw [hpose]
        · rw [hfile]
          rfl
        · rw [conflictCount_concat, if_pos ⟨hstatic, first, hsome, by simpa using hsame⟩,
            ← h.staticConflicts]

/-- The anomalies that a sample adds, but for a late stamp. -/
def Anomalies.noteFuture (a : Anomalies) (opts : IngestOptions) (rec : RawRecord F) : Anomalies :=
  if satSub (stampOf rec) rec.logTimeNs > opts.futureHorizonNs then { a with
    futureStamps := a.futureStamps + 1
    worstFutureOffsetNs := max a.worstFutureOffsetNs (satSub (stampOf rec) rec.logTimeNs) }
  else a

/-- A sample on the entry of an edge without static records. -/
theorem Entry.observe_sample (hpose : e.row.staticPose = none) (hsample : isSample rec = true) :
    Entry.observe opts (some e) rec =
      match e.row.clock.observe (stampOf rec) with
      | (.forward, clock) => .ok (some { e with
          row := { e.row with dynamicSeen := true, clock := clock }.count (stampOf rec)
          anomalies := e.anomalies.noteFuture opts rec })
      | (.jitter _, clock) => .ok (some { e with
          row := { e.row with dynamicSeen := true, clock := clock }.count (stampOf rec)
          anomalies := { e.anomalies.noteFuture opts rec with
            outOfOrder := (e.anomalies.noteFuture opts rec).outOfOrder + 1 } })
      | (.reset byNanos _, _) => .error (.clockReset byNanos) := by
  obtain ⟨hdynamic, hstamp⟩ : rec.isStatic = false ∧ rec.stampNs.toInt ≠ 0 := by
    simpa [isSample, stampOf] using hsample
  rw [Entry.observe_eq_dynamic hdynamic]
  unfold SurveyRow.observeDynamic Anomalies.noteFuture
  simp only [Bool.false_eq_true, if_false, hpose, Option.isSome_none, hstamp, stampOf]
  rcases e.row.clock.observe rec.stampNs.toInt with ⟨verdict, clock⟩
  cases verdict with
  | forward => rfl
  | jitter n => rfl
  | reset n policy => rfl

omit [Floats F] in
/-- A sample adds to the future stamps, and to no other counter. -/
theorem Anomalies.noteFuture_eq (a : Anomalies) (opts : IngestOptions)
    (hsample : isSample rec = true) :
    a.noteFuture opts rec = { a with
      futureStamps := a.futureStamps + if isFuture opts rec then 1 else 0
      worstFutureOffsetNs := if isFuture opts rec then
        max a.worstFutureOffsetNs (satSub (stampOf rec) rec.logTimeNs)
        else a.worstFutureOffsetNs } := by
  have hfuture : isFuture opts rec =
      decide (satSub (stampOf rec) rec.logTimeNs > opts.futureHorizonNs) := by
    simp [isFuture, hsample]
  unfold Anomalies.noteFuture
  rw [hfuture]
  by_cases hahead : satSub (stampOf rec) rec.logTimeNs > opts.futureHorizonNs
  · simp [hahead]
  · simp [hahead]

section Dynamic

variable {clock : ClockGuard}

/-- Behind a dynamic record there is no static one, and no contradiction of one. -/
theorem Entry.Sums.concat_dynamic (h : e.Sums opts recs) (hdynamic : rec.isStatic = false)
    (hfind : recs.find? (·.isStatic) = none) : e.row.staticPose = none ∧ e.onFile = none ∧
      (recs ++ [rec]).find? (·.isStatic) = none ∧
      conflictCount (recs ++ [rec]) = e.anomalies.staticConflicts ∧
      (∀ r ∈ recs, r.isStatic = rec.isStatic) ∧
      (recs ++ [rec]).any (fun r => !r.isStatic) = true := by
  refine ⟨?_, ?_, ?_, ?_, fun r hr => ?_, by simp [hdynamic]⟩
  · rw [h.reports.staticPose, hfind]
    rfl
  · rw [h.onFile, hfind]
    rfl
  · rw [List.find?_append, hfind]
    simp [hdynamic]
  · rw [conflictCount_concat, if_neg (by simp [hdynamic]), h.staticConflicts]
    rfl
  · rw [hdynamic]
    simpa using List.find?_eq_none.mp hfind r hr

/-- A dynamic record without a stamp is dropped. -/
theorem Entry.Sums.unstamped (h : e.Sums opts recs) (hfirst : recs = [] → e.row.topic = rec.topic)
    (hdynamic : rec.isStatic = false) (hfind : recs.find? (·.isStatic) = none)
    (hzero : stampOf rec = 0) (hstamps : sampleStamps (recs ++ [rec]) = sampleStamps recs) :
    Entry.Sums opts (recs ++ [rec]) { e with
      row := { e.row with dynamicSeen := true }
      anomalies.zeroStampDrops := e.anomalies.zeroStampDrops + 1 } := by
  have hsample : isSample rec = false := by simp [isSample, hzero]
  have hfuture : isFuture opts rec = false := by simp [isFuture, hsample]
  obtain ⟨-, hfile, hnone, hconflict, -, hseen⟩ := h.concat_dynamic hdynamic hfind
  refine ⟨h.reports.concat rfl hfirst ?_ ?_, ?_, h.threshold, hseen.symm, ?_, ?_, ?_, ?_, ?_,
    hconflict.symm, h.emptyNames⟩
  · rw [hdynamic]
    exact (Option.or_none).symm
  · rw [hsample]
    rfl
  · rw [hstamps]
    exact h.clock
  · rw [hnone]
    exact hfile
  · rw [List.countP_append, ← h.zeroStampDrops]
    simp [hdynamic, hzero]
  · rw [List.countP_append, ← h.futureStamps]
    simp [hfuture]
  · rw [worstAhead_concat, hfuture]
    exact h.worst
  · rw [hstamps]
    exact h.outOfOrder

/-- A sample that the clock takes is counted. -/
theorem Entry.Sums.sampled (h : e.Sums opts recs) (hfirst : recs = [] → e.row.topic = rec.topic)
    (hfind : recs.find? (·.isStatic) = none) (hsample : isSample rec = true)
    (hnewest : clock.newest = (sampleStamps (recs ++ [rec])).max?)
    (hthreshold : clock.thresholdNanos = e.row.clock.thresholdNanos) :
    Entry.Sums opts (recs ++ [rec]) { e with
      row := { e.row with dynamicSeen := true, clock := clock }.count (stampOf rec)
      anomalies := { e.anomalies.noteFuture opts rec with
        outOfOrder := lateCount (sampleStamps (recs ++ [rec])) } } := by
  obtain ⟨hdynamic, hstamp⟩ : rec.isStatic = false ∧ stampOf rec ≠ 0 := by
    simpa [isSample] using hsample
  obtain ⟨-, hfile, hnone, hconflict, -, hseen⟩ := h.concat_dynamic hdynamic hfind
  rw [Anomalies.noteFuture_eq e.anomalies opts hsample]
  refine ⟨h.reports.concat rfl hfirst ?_ ?_, hnewest, hthreshold.trans h.threshold, hseen.symm, ?_,
    ?_, ?_, ?_, rfl, hconflict.symm, h.emptyNames⟩
  · rw [hdynamic]
    exact (Option.or_none).symm
  · rw [hsample]
    rfl
  · rw [hnone]
    exact hfile
  · rw [List.countP_append, ← h.zeroStampDrops]
    simp [hstamp]
  · rw [List.countP_append, List.countP_singleton, ← h.futureStamps]
  · rw [worstAhead_concat, ← h.worst]

end Dynamic

/-- A dynamic record is taken exactly if no static one came before and the clock is steady. -/
theorem Entry.Sums.observe_dynamic (h : e.Sums opts recs) (hadm : Admissible opts recs)
    (hfirst : recs = [] → e.row.topic = rec.topic) (hdynamic : rec.isStatic = false) :
    (∃ e', Entry.observe opts (some e) rec = .ok (some e') ∧ Admissible opts (recs ++ [rec]) ∧
      e'.Sums opts (recs ++ [rec])) ∨
    (∃ fault, Entry.observe opts (some e) rec = .error fault ∧
      ¬ Admissible opts (recs ++ [rec])) := by
  cases hfind : recs.find? (·.isStatic) with
  | some first =>
    -- a static record came before
    have hpose : e.row.staticPose = some first.pose := by
      rw [h.reports.staticPose, hfind]
      rfl
    refine .inr ⟨.kindChanged, ?_, not_admissible_of_kind (List.mem_of_find?_eq_some hfind) ?_⟩
    · rw [Entry.observe_eq_dynamic hdynamic]
      simp [SurveyRow.observeDynamic, hpose, Except.map]
    · rw [hdynamic, List.find?_some hfind]
      simp
  | none =>
    obtain ⟨hpose, -, -, -, hkind, -⟩ := h.concat_dynamic hdynamic hfind
    by_cases hzero : stampOf rec = 0
    · -- dropped
      have hstamps : sampleStamps (recs ++ [rec]) = sampleStamps recs := by
        rw [sampleStamps_concat, show isSample rec = false by simp [isSample, hzero]]
        simp
      refine .inl ⟨_, ?_, admissible_concat hkind (hstamps ▸ hadm.steady),
        h.unstamped hfirst hdynamic hfind hzero hstamps⟩
      have hstamp : rec.stampNs.toInt = 0 := hzero
      rw [Entry.observe_eq_dynamic hdynamic]
      simp [SurveyRow.observeDynamic, hpose, hstamp, Except.map]
    · have hsample : isSample rec = true := by simp [isSample, hdynamic, hzero]
      have hstamps : sampleStamps (recs ++ [rec]) = sampleStamps recs ++ [stampOf rec] := by
        rw [sampleStamps_concat, hsample]
        rfl
      rw [Entry.observe_sample hpose hsample]
      rcases observe_clock h.clock h.threshold (stampOf rec) with
        ⟨n, hreset, hback⟩ | ⟨hsteady, hnewest, hthreshold, hlate⟩
      · refine .inr ⟨.clockReset n, ?_, fun hadm' => hback ?_⟩
        · rcases hobserve : e.row.clock.observe (stampOf rec) with ⟨verdict, clock⟩
          rw [hobserve] at hreset
          obtain rfl : verdict = .reset n _ := hreset
          rfl
        · have hall := hadm'.steady
          rw [hstamps, steady_concat] at hall
          exact hall.2
      · have hadm' : Admissible opts (recs ++ [rec]) :=
          admissible_concat hkind (hstamps ▸ steady_concat.mpr ⟨hadm.steady, hsteady⟩)
        have hsums := h.sampled hfirst hfind hsample (hstamps ▸ hnewest) hthreshold
        have hout : (e.anomalies.noteFuture opts rec).outOfOrder =
            lateCount (sampleStamps recs) := by
          rw [Anomalies.noteFuture_eq e.anomalies opts hsample]
          exact h.outOfOrder
        rw [hstamps, lateCount_concat, ← hout] at hsums
        refine .inl ?_
        rcases hobserve : e.row.clock.observe (stampOf rec) with ⟨verdict, clock⟩
        rw [hobserve] at hlate hsums
        rcases hlate with ⟨hforward, hnever⟩ | ⟨⟨n, hjitter⟩, hlater⟩
        · obtain rfl : verdict = .forward := hforward
          rw [hnever] at hsums
          exact ⟨_, rfl, hadm', hsums⟩
        · obtain rfl : verdict = .jitter n := hjitter
          rw [hlater] at hsums
          exact ⟨_, rfl, hadm', hsums⟩

/-- The entry behind the records of an edge. -/
def Entry.Of (opts : IngestOptions) (recs : List (RawRecord F)) : Option (Entry F) → Prop
  | none => recs = []
  | some e => recs ≠ [] ∧ e.Sums opts recs

/-- **Step lemma.** One more record is taken exactly if the records stay admissible. -/
theorem Entry.Of.observe {entry : Option (Entry F)} (h : Entry.Of opts recs entry)
    (hadm : Admissible opts recs) (rec : RawRecord F) :
    (∃ e, Entry.observe opts entry rec = .ok (some e) ∧ Admissible opts (recs ++ [rec]) ∧
      Entry.Of opts (recs ++ [rec]) (some e)) ∨
    (∃ fault, Entry.observe opts entry rec = .error fault ∧
      ¬ Admissible opts (recs ++ [rec])) := by
  obtain ⟨e, hsums, hfirst, hsame⟩ : ∃ e : Entry F, e.Sums opts recs ∧
      (recs = [] → e.row.topic = rec.topic) ∧
      Entry.observe opts entry rec = Entry.observe opts (some e) rec := by
    refine ⟨entry.getD (.fresh opts rec.topic), ?_, fun hnil => ?_, Entry.observe_getD entry⟩
    · cases entry with
      | none =>
        have hnil : recs = [] := h
        exact hnil ▸ Entry.sums_fresh opts rec.topic
      | some e => exact h.2
    · cases entry with
      | none => rfl
      | some e => exact absurd hnil h.1
  rw [hsame]
  have hstep : (∃ e', Entry.observe opts (some e) rec = .ok (some e') ∧
      Admissible opts (recs ++ [rec]) ∧ e'.Sums opts (recs ++ [rec])) ∨
      (∃ fault, Entry.observe opts (some e) rec = .error fault ∧
        ¬ Admissible opts (recs ++ [rec])) := by
    cases hstatic : rec.isStatic with
    | true => exact hsums.observe_static hadm hfirst hstatic
    | false => exact hsums.observe_dynamic hadm hfirst hstatic
  rcases hstep with ⟨e', hok, hadm', hsums'⟩ | hfault
  · exact .inl ⟨e', hok, hadm', by simp, hsums'⟩
  · exact .inr hfault

end Step

end TfTree.Offline
