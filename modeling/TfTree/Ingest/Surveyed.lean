import Mathlib
import TfTree.Data.OkPrefix
import TfTree.Ingest.Distribution
import TfTree.Ingest.SurveySpec

/-!
# Which recordings are surveyed

The survey of a whole recording. What the reader hands over does not depend on the callback, so
that the survey is a statement about the transforms of the recording.

Results:
* `foldlM_step`: the callback takes the transforms exactly if every edge is admissible.
* `survey_spec`: which recordings are surveyed, and what the survey says of them.
* `survey_balanced`: every transform that was read is accounted for once.
-/

namespace TfTree.Offline

open Data Mcap Bridge

variable {F : Type} [Floats F]

/-- What a survey says of the transforms of a recording. -/
structure Describes (start : List String) (opts : IngestOptions) (recs : List (RawRecord F))
    (st : Pass F) : Prop where
  /-- The names are interned where they come first, after those there were. -/
  names : st.frames.names = namesAfter start opts recs
  /-- So are the edges. -/
  edges : st.edges.map (fun e => st.frames.edge e.1) = edgeKeys opts recs
  /-- Each row is the report of the records of its edge. -/
  reports : ∀ e ∈ st.edges, Reports (recordsOf opts recs (st.frames.edge e.1)) e.2
  zeroStampDrops : st.anomalies.zeroStampDrops =
    (named opts recs).countP fun x => !x.2.isStatic && stampOf x.2 == 0
  futureStamps : st.anomalies.futureStamps = (named opts recs).countP fun x => isFuture opts x.2
  worst : st.anomalies.worstFutureOffsetNs = worstAhead opts ((named opts recs).map Prod.snd)
  outOfOrder : st.anomalies.outOfOrder = sumOver (edgeKeys opts recs) fun k =>
    lateCount (sampleStamps (recordsOf opts recs k))
  staticConflicts : st.anomalies.staticConflicts = sumOver (edgeKeys opts recs) fun k =>
    conflictCount (recordsOf opts recs k)
  emptyNames : st.anomalies.emptyNames = recs.countP fun rec => (nameKey opts rec).isNone
  transformsRead : st.transformsRead = recs.length

/-- Every edge of the transforms is admissible. -/
def AllAdmissible (opts : IngestOptions) (recs : List (RawRecord F)) : Prop :=
  ∀ k, Admissible opts (recordsOf opts recs k)

section Run

variable {start : List String} {opts : IngestOptions} {recs : List (RawRecord F)}
  {rec : RawRecord F} {st : Pass F} {entry : String × String → Option (Entry F)} {frames : Frames}

theorem Pass.holds_init (opts : IngestOptions) (hframes : frames.Ok) :
    (Pass.init opts frames : Pass F).Holds frames.names opts [] fun _ => none where
  tfPrefix := rfl
  frames := hframes
  names := rfl
  known := List.forall_mem_nil _
  edges := rfl
  index _ := rfl
  rows := List.forall_mem_nil _
  unseen _ _ := rfl
  statics := staticsOk_init
  onFile _ := rfl
  reported _ := rfl
  zeroStampDrops := rfl
  futureStamps := rfl
  worst := rfl
  outOfOrder := rfl
  staticConflicts := rfl
  emptyNames := rfl
  transformsRead := rfl

/-- The entries that add up the records of their edges describe them. -/
theorem Pass.Holds.describes (h : st.Holds start opts recs entry)
    (hentry : ∀ k, Entry.Of opts (recordsOf opts recs k) (entry k)) :
    Describes start opts recs st := by
  have hsums : ∀ k ∈ edgeKeys opts recs, ∃ e, entry k = some e ∧
      e.Sums opts (recordsOf opts recs k) := by
    intro k hk
    have hne := recordsOf_ne_nil.mpr hk
    have hof := hentry k
    cases he : entry k with
    | none =>
      rw [he] at hof
      exact absurd hof hne
    | some e =>
      rw [he] at hof
      exact ⟨e, rfl, hof.2⟩
  refine ⟨h.names, h.edges, fun x hx => ?_, h.zeroStampDrops, h.futureStamps, h.worst, ?_, ?_,
    h.emptyNames, h.transformsRead⟩
  · obtain ⟨en, hen, hrow⟩ := h.rows x hx
    have hof := hentry (st.frames.edge x.1)
    rw [hen] at hof
    rw [← hrow]
    exact hof.2.reports
  · rw [h.outOfOrder]
    unfold sumOver
    congr 1
    refine List.map_congr_left fun k hk => ?_
    obtain ⟨e, he, hsum⟩ := hsums k hk
    rw [he]
    exact hsum.outOfOrder
  · rw [h.staticConflicts]
    unfold sumOver
    congr 1
    refine List.map_congr_left fun k hk => ?_
    obtain ⟨e, he, hsum⟩ := hsums k hk
    rw [he]
    exact hsum.staticConflicts

omit [Floats F] in
/-- The records of the edges grow with the transforms. -/
theorem recordsOf_extends (opts : IngestOptions) (recs : List (RawRecord F)) (rec : RawRecord F)
    (k : String × String) :
    ∃ more, recordsOf opts (recs ++ [rec]) k = recordsOf opts recs k ++ more := by
  unfold recordsOf
  rw [named_concat, groupOf_append, List.map_append]
  exact ⟨_, rfl⟩

/-- **Run lemma.** The callback takes the transforms exactly if every edge is admissible, and
leaves variables that describe them. -/
theorem foldlM_step (opts : IngestOptions) (recs : List (RawRecord F)) (hframes : frames.Ok) :
    (AllAdmissible opts recs ∧ ∃ st entry, recs.foldlM (Pass.step opts) (.init opts frames) =
      .ok st ∧ Pass.Holds frames.names opts recs entry st ∧
        ∀ k, Entry.Of opts (recordsOf opts recs k) (entry k)) ∨
    (¬ AllAdmissible opts recs ∧
      ∃ e, recs.foldlM (Pass.step opts) (.init opts frames) = .error (.error e)) := by
  induction recs using List.reverseRecOn with
  | nil =>
    exact .inl ⟨fun _ => admissible_nil, _, _, rfl, Pass.holds_init opts hframes, fun _ => rfl⟩
  | append_singleton recs rec ih =>
    rw [List.foldlM_append]
    rcases ih with ⟨hadm, st, entry, hrun, hholds, hentry⟩ | ⟨hbad, e, hrun⟩
    · have hone : (Except.ok st >>= fun s => [rec].foldlM (Pass.step opts) s) =
          st.step opts rec := by
        show [rec].foldlM (Pass.step opts) st = _
        rw [List.foldlM_cons]
        cases st.step opts rec with
        | error e => rfl
        | ok st => rfl
      rw [hrun, hone]
      rcases hholds.step rec with ⟨hk, st', hstep, hholds'⟩ | ⟨k, hk, hstep⟩
      · have hsame : recordsOf opts (recs ++ [rec]) = recordsOf opts recs := by
          funext k
          rw [recordsOf, named_concat, hk, List.append_nil]
          rfl
        refine .inl ⟨?_, st', entry, hstep, hholds', ?_⟩
        · unfold AllAdmissible
          rw [hsame]
          exact hadm
        · rw [hsame]
          exact hentry
      · have hhere : recordsOf opts (recs ++ [rec]) k = recordsOf opts recs k ++ [rec] := by
          rw [recordsOf_concat hk, if_pos rfl]
        have hother : ∀ k', k' ≠ k →
            recordsOf opts (recs ++ [rec]) k' = recordsOf opts recs k' := by
          intro k' hne
          rw [recordsOf_concat hk, if_neg (Ne.symm hne), List.append_nil]
        rcases (hentry k).observe (hadm k) rec with ⟨e', hok, hadm', hof⟩ | ⟨fault, herr, hbad⟩
        · rcases hstep with ⟨e, st', hobserve, hstep, hholds'⟩ | ⟨fault, err, hobserve, -⟩
          · cases hok.symm.trans hobserve
            refine .inl ⟨fun k' => ?_, st', _, hstep, hholds', fun k' => ?_⟩
            · by_cases hne : k' = k
              · subst hne
                rw [hhere]
                exact hadm'
              · rw [hother k' hne]
                exact hadm k'
            · by_cases hne : k' = k
              · subst hne
                rw [hhere, Function.update_self]
                exact hof
              · rw [hother k' hne, Function.update_of_ne hne]
                exact hentry k'
          · cases hok.symm.trans hobserve
        · rcases hstep with ⟨e, st', hobserve, -, -⟩ | ⟨fault', err, -, hstep⟩
          · cases herr.symm.trans hobserve
          · refine .inr ⟨fun hall => hbad ?_, err, hstep⟩
            rw [← hhere]
            exact hall k
    · refine .inr ⟨fun hall => hbad fun k => ?_, e, ?_⟩
      · obtain ⟨more, hmore⟩ := recordsOf_extends opts recs rec k
        have hk := hall k
        rw [hmore] at hk
        exact hk.of_append
      · rw [hrun]
        rfl

omit [Floats F] in
theorem edgeKeys_eq_nil : edgeKeys opts recs = [] ↔ named opts recs = [] := by
  unfold edgeKeys
  rw [List.eq_nil_iff_forall_not_mem, List.eq_nil_iff_forall_not_mem]
  constructor
  · exact fun h x hx => h x.1 (mem_firstSeen.mpr (List.mem_map_of_mem hx))
  · intro h k hk
    obtain ⟨x, hx, -⟩ := List.mem_map.mp (mem_firstSeen.mp hk)
    exact h x hx

omit [Floats F] in
theorem length_eq_countP (opts : IngestOptions) (recs : List (RawRecord F)) : recs.length =
    recs.countP (fun rec => (nameKey opts rec).isNone) + (named opts recs).length := by
  induction recs with
  | nil => rfl
  | cons rec recs ih =>
    unfold named at ih ⊢
    rw [List.countP_cons, List.length_cons]
    cases hk : nameKey opts rec with
    | none =>
      rw [List.filterMap_cons_none (by rw [hk]; rfl), Option.isNone_none, if_pos rfl]
      omega
    | some k =>
      rw [List.filterMap_cons_some (by rw [hk]; rfl), Option.isNone_some, List.length_cons]
      simp only [Bool.false_eq_true, if_false]
      omega

omit [Floats F] in
/-- A record with names is static, or has no stamp, or is a sample. -/
theorem length_named (xs : List ((String × String) × RawRecord F)) : xs.length =
    xs.countP (fun x => x.2.isStatic) +
      (xs.countP (fun x => !x.2.isStatic && stampOf x.2 == 0) +
        xs.countP fun x => isSample x.2) := by
  induction xs with
  | nil => rfl
  | cons x xs ih =>
    rw [List.countP_cons, List.countP_cons, List.countP_cons, List.length_cons]
    by_cases hstatic : x.2.isStatic = true
    · have hsample : isSample x.2 = false := by simp [isSample, hstatic]
      simp [hstatic, hsample]
      omega
    · by_cases hzero : stampOf x.2 = 0
      · have hsample : isSample x.2 = false := by simp [isSample, hzero]
        simp [hstatic, hsample, hzero]
        omega
      · have hsample : isSample x.2 = true := by simp [isSample, hstatic, hzero]
        simp [hstatic, hsample, hzero]
        omega

omit [Floats F] in
/-- The samples of the edges are all the samples. -/
theorem sum_samples (opts : IngestOptions) (recs : List (RawRecord F)) :
    sumOver (edgeKeys opts recs) (fun k => ((recordsOf opts recs k).filter isSample).length) =
      (named opts recs).countP fun x => isSample x.2 := by
  rw [← sum_groups Prod.fst]
  show _ = sumOver (edgeKeys opts recs) _
  refine congrArg List.sum (List.map_congr_left fun k _ => ?_)
  rw [← List.countP_eq_length_filter, recordsOf, List.countP_map]
  rfl

theorem Describes.edges_eq_nil (h : Describes start opts recs st) :
    st.edges = [] ↔ named opts recs = [] := by
  rw [← edgeKeys_eq_nil, ← h.edges, List.map_eq_nil_iff]

end Run

/-! ## A recording -/

section Recording

variable [LeBytes F]

/-- The recording as it is read: what the reader ends with, the counts, and the transforms. -/
def scan (crates : Crates) (opts : IngestOptions) (file : List UInt8) :
    Except (ReadError (Stop SurveyError)) Unit × ReadState F :=
  readTf crates opts.roles (takeAll F (Stop SurveyError)) opts.readPolicy file

/-- The transforms of the recording. -/
def transformsOf (crates : Crates) (opts : IngestOptions) (file : List UInt8) :
    List (RawRecord F) := (scan crates opts file).2.emitted

variable {crates : Crates} {opts : IngestOptions} {frames : Frames} {file : List UInt8}

/-- The variables of a survey that ends well. -/
theorem survey_eq_ok {s : Survey F} (h : survey crates opts frames file = .ok s) :
    (scan crates opts file : _ × ReadState F).1 = .ok () ∧ s.edges ≠ [] ∧
      s.skips = (scan crates opts file : _ × ReadState F).2.skips ∧
      (transformsOf crates opts file).foldlM (Pass.step opts) (.init opts frames) =
        .ok s.toPass := by
  unfold survey at h
  rw [readTfWith_eq] at h
  unfold transformsOf scan
  cases hfold : (readTf crates opts.roles (takeAll F (Stop SurveyError)) opts.readPolicy
      file).2.emitted.foldlM (Pass.step opts) (.init opts frames) with
  | error e =>
    rw [hfold] at h
    cases h
  | ok st =>
    rw [hfold] at h
    cases hread : (readTf crates opts.roles (takeAll F (Stop SurveyError)) opts.readPolicy
        file).1 with
    | error e =>
      rw [hread] at h
      cases h
    | ok u =>
      rw [hread] at h
      simp only [Except.map] at h
      by_cases hempty : st.edges = []
      · rw [if_pos hempty] at h
        cases h
      · rw [if_neg hempty] at h
        cases h
        exact ⟨rfl, hempty, rfl, rfl⟩

/-- A survey ends well where the reader does and the callback takes the transforms, if there is
an edge. -/
theorem survey_of_foldlM {st : Pass F}
    (hread : (scan crates opts file : _ × ReadState F).1 = .ok ())
    (hfold : (transformsOf crates opts file).foldlM (Pass.step opts) (.init opts frames) = .ok st)
    (hedges : st.edges ≠ []) :
    survey crates opts frames file =
      .ok ⟨st, (scan crates opts file : _ × ReadState F).2.skips⟩ := by
  unfold transformsOf scan at hfold
  unfold scan at hread
  rw [survey, readTfWith_eq, hfold, hread]
  exact if_neg hedges

/-- The same where both are evaluated. -/
theorem survey_of_pass (frames : Frames) (p : Pass F → Bool) {recs : List (RawRecord F)}
    (hread : (scan crates opts file : _ × ReadState F).1.toOption = some ())
    (hrecs : transformsOf crates opts file = recs)
    (hpass : ((recs.foldlM (Pass.step opts) (.init opts frames)).toOption.any fun st =>
      !st.edges.isEmpty && p st) = true) :
    ∃ s : Survey F, survey crates opts frames file = .ok s ∧ p s.toPass = true := by
  obtain ⟨st, hfold, hst⟩ := (Option.any_eq_true _ _).mp hpass
  obtain ⟨hedges, hp⟩ := (Bool.and_eq_true _ _).mp hst
  refine ⟨_, survey_of_foldlM (toOption_eq_some.mp hread) ?_ ?_, hp⟩
  · rw [hrecs]
    exact toOption_eq_some.mp hfold
  · simpa using hedges

/-- What a survey that ends well says of the recording. -/
theorem describes_of_survey (hframes : frames.Ok) {s : Survey F}
    (h : survey crates opts frames file = .ok s) :
    Describes frames.names opts (transformsOf crates opts file) s.toPass ∧
      AllAdmissible opts (transformsOf crates opts file : List (RawRecord F)) := by
  obtain ⟨-, -, -, hfold⟩ := survey_eq_ok h
  rcases foldlM_step opts (transformsOf crates opts file : List (RawRecord F)) hframes with
    ⟨hadm, st, entry, hok, hholds, hentry⟩ | ⟨-, e, herror⟩
  · cases hok.symm.trans hfold
    exact ⟨hholds.describes hentry, hadm⟩
  · cases herror.symm.trans hfold

/-- Which recordings are surveyed, and what the survey says of them: it ends well exactly if
the reader does, every edge is admissible and some transform has names. -/
theorem survey_spec (crates : Crates) (opts : IngestOptions) (hframes : frames.Ok)
    (file : List UInt8) :
    ((∃ s : Survey F, survey crates opts frames file = .ok s) ↔
      (scan crates opts file : _ × ReadState F).1 = .ok () ∧
        AllAdmissible opts (transformsOf crates opts file : List (RawRecord F)) ∧
        named opts (transformsOf crates opts file : List (RawRecord F)) ≠ []) ∧
    ∀ s : Survey F, survey crates opts frames file = .ok s →
      s.skips = (scan crates opts file : _ × ReadState F).2.skips ∧
      Describes frames.names opts (transformsOf crates opts file) s.toPass := by
  refine ⟨⟨?_, ?_⟩, fun s hs => ?_⟩
  · rintro ⟨s, hs⟩
    obtain ⟨hread, hedges, -, -⟩ := survey_eq_ok hs
    obtain ⟨hdescribes, hadm⟩ := describes_of_survey hframes hs
    exact ⟨hread, hadm, (not_congr hdescribes.edges_eq_nil).mp hedges⟩
  · rintro ⟨hread, hadm, hnamed⟩
    rcases foldlM_step opts (transformsOf crates opts file : List (RawRecord F)) hframes with
      ⟨-, st, entry, hok, hholds, hentry⟩ | ⟨hbad, -⟩
    · have hedges := (not_congr (hholds.describes hentry).edges_eq_nil).mpr hnamed
      exact ⟨_, survey_of_foldlM hread hok hedges⟩
    · exact absurd hadm hbad
  · exact ⟨(survey_eq_ok hs).2.2.1, (describes_of_survey hframes hs).1⟩

/-- Every transform that was read is accounted for once: its name was refused, it is static, it
has no stamp, or it is a sample of one edge. -/
theorem survey_balanced (hframes : frames.Ok) {s : Survey F}
    (h : survey crates opts frames file = .ok s) :
    s.transformsRead = s.anomalies.emptyNames +
      (named opts (transformsOf crates opts file : List (RawRecord F))).countP (·.2.isStatic) +
      s.anomalies.zeroStampDrops + (s.edges.map fun e => e.2.samples).sum := by
  obtain ⟨hdescribes, -⟩ := describes_of_survey hframes h
  have hsamples : (s.edges.map fun e => e.2.samples).sum =
      (named opts (transformsOf crates opts file : List (RawRecord F))).countP
        fun x => isSample x.2 := by
    rw [← sum_samples, ← hdescribes.edges, sumOver, List.map_map]
    exact congrArg List.sum (List.map_congr_left fun e he => (hdescribes.reports e he).samples)
  rw [hdescribes.transformsRead, hdescribes.emptyNames, hdescribes.zeroStampDrops, hsamples,
    length_eq_countP opts, length_named]
  omega

end Recording

/-! ## A recording of two edges -/

/-- A word as a number with two decimals. -/
def hundredthsOf (w : BitVec 64) : Hundredths := ⟨w.toInt⟩

/-- The word of a number with two decimals. -/
def wordOf (h : Hundredths) : BitVec 64 := BitVec.ofInt 64 h.n

/-- Words that calculate as numbers with two decimals do. -/
instance fixedPoint : Floats (BitVec 64) where
  add a b := wordOf (hundredthsOf a + hundredthsOf b)
  sub a b := wordOf (hundredthsOf a - hundredthsOf b)
  mul a b := wordOf (hundredthsOf a * hundredthsOf b)
  neg a := wordOf (-hundredthsOf a)
  div a b := wordOf (hundredthsOf a / hundredthsOf b)
  zero := wordOf 0
  one := wordOf 1
  natCast k := wordOf k
  isFinite _ := true
  lt a b := Floats.lt (hundredthsOf a) (hundredthsOf b)
  le a b := Floats.le (hundredthsOf a) (hundredthsOf b)
  abs a := wordOf (Floats.abs (hundredthsOf a))
  ceil a := wordOf (Floats.ceil (hundredthsOf a))
  max a b := wordOf (Floats.max (hundredthsOf a) (hundredthsOf b))
  mulAdd a b c := wordOf (Floats.mulAdd (hundredthsOf a) (hundredthsOf b) (hundredthsOf c))
  ofInt i := wordOf (Floats.ofInt i)
  toI64 a := Floats.toI64 (hundredthsOf a)
  debug a := Floats.debug (hundredthsOf a)
  parse s := (Floats.parse s).map wordOf

/-- A channel record on the schema 1. -/
def channelOf (id : ℕ) (topic : String) : Data.Frame :=
  ⟨CHANNEL, leBytes 2 id ++ leBytes 2 1 ++ leBytes 4 topic.utf8ByteSize ++
    topic.toByteArray.data.toList ++ leBytes 4 3 ++ "cdr".toByteArray.data.toList ++ leBytes 4 0⟩

/-- A message of one transform, logged at 5. -/
def messageOf (channel : ℕ) (t : Cdr.TransformStamped (BitVec 64)) : Data.Frame :=
  ⟨MESSAGE, leBytes 2 channel ++ leBytes 4 0 ++ leBytes 8 5 ++ leBytes 8 5 ++
    Cdr.encodeTfMessage [t]⟩

/-- The other crates, as they are on `laserRecording`. -/
def tfCrates : Crates where
  __ := plainCrates
  parseRecord opcode body :=
    let id := UInt16.ofNat (numberIn body 0 2)
    if opcode = SCHEMA then .ok (.schema 1 "tf2_msgs/TFMessage")
    else if opcode = CHANNEL then .ok (.channel id 1 (if id = 1 then "/tf" else "/tf_static") "cdr")
    else if opcode = MESSAGE then
      .ok (.message id (UInt64.ofNat (numberIn body 6 8)) (body.drop 22))
    else .ok .other

/-- A transform between odom and base_link. -/
def moved (stamp : Int64) : Cdr.TransformStamped (BitVec 64) :=
  ⟨stamp, "odom", "base_link", ![100, 0, 0, 0, 0, 0, 0]⟩

/-- The laser on base_link, spelled with a slash. -/
def mounted : Cdr.TransformStamped (BitVec 64) :=
  ⟨7, "/base_link", "laser", ![100, 0, 0, 0, 0, 0, 0]⟩

/-- A static edge, and a dynamic one with a late stamp and one without a stamp. -/
def laserRecording : List UInt8 :=
  recording (atTop [⟨SCHEMA, schemaBody⟩, channelOf 1 "/tf", channelOf 2 "/tf_static",
    messageOf 1 (moved 20), messageOf 2 mounted, messageOf 1 (moved 15),
    messageOf 1 (moved 0)]) true

/-- A transform between odom and base_link as it is read. -/
def movedRecord (stamp : Int64) : RawRecord (BitVec 64) :=
  ⟨"/tf", false, 5, stamp, "odom", "base_link", ![100, 0, 0, 0, 0, 0, 0]⟩

/-- The laser as it is read. -/
def mountedRecord : RawRecord (BitVec 64) :=
  ⟨"/tf_static", true, 5, 7, "/base_link", "laser", ![100, 0, 0, 0, 0, 0, 0]⟩

deriving instance DecidableEq for RawRecord

set_option maxRecDepth 20000 in
/-- What the reader hands over. -/
theorem read_laser :
    (scan tfCrates .default laserRecording : _ × ReadState (BitVec 64)).1.toOption = some () ∧
      transformsOf tfCrates .default laserRecording =
        [movedRecord 20, mountedRecord, movedRecord 15, movedRecord 0] := by
  decide

/-- The survey of the recording. -/
def laserSurvey : Except SurveyFailure (Survey (BitVec 64)) :=
  survey tfCrates .default .default laserRecording

theorem laserSurvey_ok : ∃ s, laserSurvey = .ok s ∧ s.transformsRead = 4 ∧
    s.anomalies.zeroStampDrops = 1 ∧ (s.edges.map fun e => e.2.samples) = [2, 0] ∧
    ∃ e ∈ s.edges, s.frames.edge e.1 = ("odom", "base_link") ∧ e.2.samples = 2 ∧
      e.2.staticPose = none := by
  obtain ⟨hread, hrecs⟩ := read_laser
  obtain ⟨s, hs, hall⟩ := survey_of_pass .default (fun st =>
    st.transformsRead == 4 && st.anomalies.zeroStampDrops == 1 &&
      (st.edges.map fun e => e.2.samples) == [2, 0] &&
      st.edges.any fun e => st.frames.edge e.1 == ("odom", "base_link") && e.2.samples == 2 &&
        e.2.staticPose.isNone) hread hrecs (by decide)
  simp only [List.any_eq_true, Bool.and_eq_true, beq_iff_eq, Option.isNone_iff_eq_none] at hall
  obtain ⟨⟨⟨hread, hzero⟩, hsamples⟩, e, he, ⟨hkey, htwo⟩, hdyn⟩ := hall
  exact ⟨s, hs, hread, hzero, hsamples, e, he, hkey, htwo, hdyn⟩

/-- The same survey into a table that has a frame already. -/
theorem survey_spec_laser : ∃ s : Survey (BitVec 64),
    survey tfCrates .default (Frames.default.intern "map").2 laserRecording = .ok s ∧
    s.frames.names = ["map", "odom", "base_link", "laser"] ∧
    Describes ["map"] .default (transformsOf tfCrates .default laserRecording) s.toPass := by
  obtain ⟨hread, hrecs⟩ := read_laser
  obtain ⟨s, hs, hnames⟩ := survey_of_pass (Frames.default.intern "map").2
    (fun st => st.frames.names == ["map", "odom", "base_link", "laser"]) hread hrecs
    (by decide)
  have hspec := survey_spec (F := BitVec 64) tfCrates .default
    (Frames.ok_default.intern "map").1 laserRecording
  exact ⟨s, hs, beq_iff_eq.mp hnames, (hspec.2 s hs).2⟩

/-- Of four transforms one is static, one has no stamp, and two are samples. -/
theorem survey_balanced_laser : ∃ s, laserSurvey = .ok s ∧ s.transformsRead = 4 ∧
    4 = s.anomalies.emptyNames + (named .default (transformsOf tfCrates .default laserRecording :
      List (RawRecord (BitVec 64)))).countP (·.2.isStatic) + 1 + 2 := by
  obtain ⟨s, hs, hread, hzero, hsamples, -⟩ := laserSurvey_ok
  have hbalanced := survey_balanced Frames.ok_default hs
  rw [hread, hzero, hsamples] at hbalanced
  exact ⟨s, hs, hread, hbalanced⟩

end TfTree.Offline
