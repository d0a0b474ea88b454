import Mathlib
import TfTree.Math.Screw
import TfTree.Ingest.Ingested
import TfTree.Tree.Built

/-!
# What a fill promises

The two promises of the fill, for recordings whose names the hash keeps apart, and what becomes of
them where it does not: two names that are stored alike get one frame, and their edges one ring.

Results:
* `fill_recalls`: the stamps that can be looked up, and the counts.
* `fill_order_free`: the order of a recording does not show in the tree.
* `cameras_forgotten`, `cameras_ordered`: neither holds for two cameras with one id.
-/

namespace TfTree.Offline

open Data Mcap Bridge Conc

section Promises

variable {F : Type} [Doubles F] [LeBytes F] {hash : List UInt8 → ℕ} {crates crates' : Crates}
  {opts : IngestOptions} {file file' : List UInt8} {recs recs' : List (RawRecord F)}
  {s s' : Survey F}

/-- A fill goes through exactly when the tree of the recording can be built. Then every dynamic
edge whose ring its samples do not fill reads back each of their stamps with the last sample, and
every sample was pushed or counted as a duplicate. -/
theorem fill_recalls (hsurvey : survey crates opts .default file = .ok s)
    (hrecs : transformsOf crates opts file = recs)
    (hapart : Apart hash (treeOf opts recs).names) (uuid : Vector UInt8 16) (fuel : ℕ)
    (clock : ℕ → Option ℤ) (participant : Slot) :
    ((treeOf opts recs).Buildable hash ∧ ∃ st,
      fill crates opts file s fuel clock hash uuid participant = some (.ok st) ∧
      (∀ e ∈ s.edges, e.2.staticPose = none → ¬ FillsRing opts recs (s.frames.edge e.1) →
        ∀ interp policy, ∃ r,
          st.tree.Attaches ((treeOf opts recs).idOf (s.frames.name e.1.2))
            ((treeOf opts recs).idOf (s.frames.name e.1.1)) r ∧
          ReadsBack opts recs (s.frames.edge e.1) e.2.sourceOldestNs st.tree.arena.rings interp
            policy r) ∧
      st.pushed + st.duplicates = (s.edges.map fun e => e.2.samples).sum) ∨
    (¬ (treeOf opts recs).Buildable hash ∧ ∃ e,
      fill crates opts file s fuel clock hash uuid participant = some (.error (.build e))) := by
  have hs := surveyed_of_survey hsurvey
  rw [hrecs] at hs
  rcases TreeBuilder.buildWith_ends _ hapart uuid fuel with
    ⟨hable, a, hbuild⟩ | ⟨hunable, e, hbuild⟩
  · obtain ⟨st, hfill, hst⟩ := ingested_of_build hsurvey hrecs hapart hbuild clock participant
    refine .inl ⟨hable, st, hfill, fun e he hdyn hroom interp policy => ?_, ?_⟩
    · obtain ⟨r, hattaches, hreads⟩ := hst.readsBack_iff hapart hbuild hs he hdyn interp policy
      exact ⟨r, hattaches, hreads.mpr hroom⟩
    · rw [hst.balanced, ← hs.total, sampleTotal]
  · exact .inr ⟨hunable, e, fill_of_error hs hbuild clock participant⟩

omit [Doubles F] [LeBytes F] in
/-- The records of an edge are those with its names. -/
theorem mem_recordsOf {k : String × String} {rec : RawRecord F} :
    rec ∈ recordsOf opts recs k ↔ rec ∈ recs ∧ nameKey opts rec = some k := by
  rw [recordsOf, List.mem_map]
  constructor
  · rintro ⟨⟨k', rec'⟩, hmem, rfl⟩
    obtain ⟨hnamed, hkey⟩ := mem_groupOf.mp hmem
    obtain ⟨rec, hrec, hk⟩ := List.mem_filterMap.mp hnamed
    obtain ⟨k', hk, heq⟩ := Option.map_eq_some_iff.mp hk
    cases heq
    exact ⟨hrec, hkey ▸ hk⟩
  · rintro ⟨hrec, hk⟩
    refine ⟨(k, rec), mem_groupOf.mpr ⟨List.mem_filterMap.mpr ⟨rec, hrec, ?_⟩, rfl⟩, rfl⟩
    rw [hk]
    rfl

omit [Doubles F] [LeBytes F] in
/-- The first static pose of an edge is any of them, where all are the same. -/
theorem staticPoseOf_eq (hperm : recs.Perm recs') {k : String × String}
    (hone : ∀ rec ∈ recordsOf opts recs k, ∀ rec' ∈ recordsOf opts recs k,
      rec.isStatic = true → rec'.isStatic = true → rec.pose = rec'.pose) :
    staticPoseOf opts recs k = staticPoseOf opts recs' k := by
  have hall : (recordsOf opts recs k).Perm (recordsOf opts recs' k) :=
    ((named_perm hperm).filter _).map _
  unfold staticPoseOf
  cases hfind : (recordsOf opts recs k).find? (·.isStatic) with
  | none =>
    have hnone : (recordsOf opts recs' k).find? (·.isStatic) = none := by
      rw [List.find?_eq_none] at hfind ⊢
      exact fun rec hrec => hfind rec (hall.mem_iff.mpr hrec)
    rw [hnone]
  | some rec =>
    have hmem := List.mem_of_find?_eq_some hfind
    have hstatic : rec.isStatic = true := List.find?_some hfind
    obtain ⟨rec', hfind'⟩ : ∃ rec', (recordsOf opts recs' k).find? (·.isStatic) = some rec' :=
      Option.isSome_iff_exists.mp (List.find?_isSome.mpr ⟨rec, hall.mem_iff.mp hmem, hstatic⟩)
    have hmem' := hall.mem_iff.mpr (List.mem_of_find?_eq_some hfind')
    rw [hfind', Option.map_some, Option.map_some,
      hone rec hmem rec' hmem' hstatic (List.find?_some hfind')]

/-- Two recordings of the same transforms, in whatever order, fill the same arena, word for word,
under any two memory caps, where no two samples of an edge have one stamp and each static edge has
one pose; or neither tree can be built, for one reason. -/
theorem fill_order_free (opts : IngestOptions) (cap cap' : UInt64)
    (hsurvey : survey crates { opts with maxMemoryBytes := cap } .default file = .ok s)
    (hsurvey' : survey crates' { opts with maxMemoryBytes := cap' } .default file' = .ok s')
    (hrecs : transformsOf crates { opts with maxMemoryBytes := cap } file = recs)
    (hrecs' : transformsOf crates' { opts with maxMemoryBytes := cap' } file' = recs')
    (hperm : recs.Perm recs')
    (hstamps : ∀ k, ((samplesOf opts recs k).map Sample.ns).Nodup)
    (hstatic : ∀ k, ∀ rec ∈ recordsOf opts recs k, ∀ rec' ∈ recordsOf opts recs k,
      rec.isStatic = true → rec'.isStatic = true → rec.pose = rec'.pose)
    (hapart : Apart hash (treeOf opts recs).names)
    (uuid : Vector UInt8 16) (fuel : ℕ) (clock clock' : ℕ → Option ℤ)
    (participant participant' : Slot) :
    ((treeOf opts recs).Buildable hash ∧ ∃ st st',
      fill crates { opts with maxMemoryBytes := cap } file s fuel clock hash uuid participant =
          some (.ok st) ∧
        fill crates' { opts with maxMemoryBytes := cap' } file' s' fuel clock' hash uuid
          participant' = some (.ok st') ∧
        st.tree.arena = st'.tree.arena) ∨
    (¬ (treeOf opts recs).Buildable hash ∧ ∃ e,
      fill crates { opts with maxMemoryBytes := cap } file s fuel clock hash uuid participant =
          some (.error (.build e)) ∧
        fill crates' { opts with maxMemoryBytes := cap' } file' s' fuel clock' hash uuid
          participant' = some (.error (.build e))) := by
  have htree : treeOf opts recs = treeOf opts recs' :=
    treeOf_eq hperm fun k => staticPoseOf_eq hperm (hstatic k)
  rcases TreeBuilder.buildWith_ends _ hapart uuid fuel with
    ⟨hable, a, hbuild⟩ | ⟨hunable, e, hbuild⟩
  · obtain ⟨st, hfill, hst⟩ :=
      ingested_of_build hsurvey hrecs hapart hbuild clock participant
    rw [htree] at hapart hbuild
    obtain ⟨st', hfill', hst'⟩ :=
      ingested_of_build hsurvey' hrecs' hapart hbuild clock' participant'
    have hagree := hst.agree hst' hperm fun k => .of_perm (samplesOf_perm hperm) (hstamps k)
    exact .inl ⟨hable, st, st', hfill, hfill', hagree.1⟩
  · have hs := surveyed_of_survey hsurvey
    have hs' := surveyed_of_survey hsurvey'
    rw [hrecs] at hs
    rw [hrecs'] at hs'
    refine .inr ⟨hunable, e, fill_of_error hs hbuild clock participant, ?_⟩
    rw [htree] at hbuild
    exact fill_of_error hs' hbuild clock' participant'

end Promises

/-! ## Two cameras -/

/-- A camera on odom, at the stamp 5. -/
def filmed (t : String × BitVec 64) : Cdr.TransformStamped (BitVec 64) :=
  ⟨5, "odom", cameraName t.1, ![100, 0, 0, 0, t.2, 0, 0]⟩

/-- The transform as it is read. -/
def filmedRecord (t : String × BitVec 64) : RawRecord (BitVec 64) :=
  ⟨"/tf", false, 5, 5, "odom", cameraName t.1, ![100, 0, 0, 0, t.2, 0, 0]⟩

/-- A recording of cameras. -/
def rigRecording (ts : List (String × BitVec 64)) : List UInt8 :=
  recording (atTop ([⟨SCHEMA, schemaBody⟩, channelOf 1 "/tf"] ++
    ts.map fun t => messageOf 1 (filmed t))) true

/-- Each camera once. -/
def shots : List (String × BitVec 64) := [("a", 100), ("b", 200)]

/-- The first camera twice, at one stamp. -/
def retaken : List (String × BitVec 64) := [("a", 50), ("b", 200), ("a", 100)]

/-- The recordings. -/
def rigs : List (List (String × BitVec 64)) := [shots, shots.reverse, retaken]

set_option maxRecDepth 100000 in
/-- What the reader hands over. -/
theorem read_rig : ∀ ts ∈ rigs,
    (scan tfCrates .default (rigRecording ts) : _ × ReadState (BitVec 64)).1.toOption.isSome ∧
      (transformsOf tfCrates .default (rigRecording ts) : List (RawRecord (BitVec 64))) =
        ts.map filmedRecord := by
  decide

/-- The variables of the survey at the end. -/
def rigPass (ts : List (String × BitVec 64)) : Pass (BitVec 64) :=
  (((ts.map filmedRecord).foldlM (Pass.step .default)
    (.init .default .default)).toOption).getD (.init .default .default)

set_option maxRecDepth 100000 in
/-- A survey takes the transforms, and these are the rows of the first camera and the counts. -/
theorem pass_rig : ∀ ts ∈ rigs,
    ((ts.map filmedRecord).foldlM (Pass.step .default) (.init .default .default)).toOption.isSome ∧
      (∃ e ∈ (rigPass ts).edges, (rigPass ts).frames.edge e.1 = ("odom", cameraName "a") ∧
        e.2.staticPose = none ∧ e.2.sourceOldestNs = some 5) ∧
      ((rigPass ts).edges.map fun e => e.2.samples).sum = ts.length := by
  decide

deriving instance DecidableEq for Sample

/-- The last sample of the first camera. -/
def lastShot : Sample (BitVec 64) := ⟨5, ![100, 0, 0, 0, 100, 0, 0]⟩

set_option maxRecDepth 100000 in
/-- The names, the edges and the samples of the transforms. -/
theorem edges_rig : ∀ ts ∈ rigs,
    (frameNames .default (ts.map filmedRecord)).Perm [cameraName "a", cameraName "b", "odom"] ∧
      (edgeKeys .default (ts.map filmedRecord)).Perm
        [("odom", cameraName "a"), ("odom", cameraName "b")] ∧
      (∀ k ∈ [("odom", cameraName "a"), ("odom", cameraName "b")],
        staticPoseOf .default (ts.map filmedRecord) k = none) ∧
      (samplesOf .default (ts.map filmedRecord) ("odom", cameraName "a")).length = ts.length - 1 ∧
      (samplesOf .default (ts.map filmedRecord) ("odom", cameraName "b")).length = 1 ∧
      ((samplesOf .default (ts.map filmedRecord) ("odom", cameraName "a")).filter
        fun y => y.ns = lastShot.ns).getLast? = some lastShot ∧
      ((samplesOf .default (ts.map filmedRecord)
        ("odom", cameraName "a")).map Sample.ns).dedup.length = 1 := by
  decide

theorem transformsOf_rig {ts : List (String × BitVec 64)} (hts : ts ∈ rigs) :
    transformsOf tfCrates .default (rigRecording ts) = ts.map filmedRecord := (read_rig ts hts).2

/-- The survey of the recording. -/
def rigSurvey (ts : List (String × BitVec 64)) : Survey (BitVec 64) :=
  ⟨rigPass ts, (scan tfCrates .default (rigRecording ts) : _ × ReadState (BitVec 64)).2.skips⟩

/-- The reader ends well. -/
theorem scan_rig {ts : List (String × BitVec 64)} (hts : ts ∈ rigs) :
    (scan tfCrates .default (rigRecording ts) : _ × ReadState (BitVec 64)).1 = .ok () := by
  obtain ⟨hread, -⟩ := read_rig ts hts
  cases h : (scan tfCrates .default (rigRecording ts) : _ × ReadState (BitVec 64)).1 with
  | error e =>
    rw [h] at hread
    cases hread
  | ok u => rfl

theorem survey_rig {ts : List (String × BitVec 64)} (hts : ts ∈ rigs) :
    survey tfCrates .default .default (rigRecording ts) = .ok (rigSurvey ts) := by
  obtain ⟨hfold, ⟨e, he, -⟩, -⟩ := pass_rig ts hts
  refine survey_of_foldlM (scan_rig hts) ?_ (List.ne_nil_of_mem he)
  rw [transformsOf_rig hts]
  unfold rigPass
  cases h : (ts.map filmedRecord).foldlM (Pass.step .default) (.init .default .default) with
  | error e =>
    rw [h] at hfold
    cases hfold
  | ok st => rfl

/-- The tree of the cameras. -/
def rigTree (n : ℕ) : TreeBuilder (BitVec 64) where
  frames := [cameraName "a", cameraName "b", "odom"]
  edges := [⟨"odom", cameraName "a", .dynamic (.ofSlots n)⟩,
    ⟨"odom", cameraName "b", .dynamic (.ofSlots 1)⟩]

theorem treeOf_rig {ts : List (String × BitVec 64)} (hts : ts ∈ rigs) :
    treeOf .default (ts.map filmedRecord) = rigTree (ts.length - 1) := by
  obtain ⟨hnames, hkeys, hdyn, hfirst, hsecond, -⟩ := edges_rig ts hts
  have hframes : (frameNames .default (ts.map filmedRecord)).mergeSort (keyLe fun name => name) =
      [cameraName "a", cameraName "b", "odom"] :=
    mergeSort_eq (fun _ _ hab => hab) hnames (by decide)
  have hsorted : sortedKeys .default (ts.map filmedRecord) =
      [("odom", cameraName "a"), ("odom", cameraName "b")] :=
    mergeSort_eq toLex.injective hkeys (by decide)
  have hlen : clampU32 (ts.length - 1) = ts.length - 1 := by
    have hshort : ∀ ts ∈ rigs, ts.length ≤ 3 := by decide
    have hts := hshort ts hts
    unfold clampU32
    omega
  unfold treeOf rigTree
  rw [hframes, hsorted, List.map_cons, List.map_singleton]
  unfold declFor
  rw [hdyn _ List.mem_cons_self, hdyn _ (List.mem_cons_of_mem _ (List.mem_singleton_self _)),
    hfirst, hsecond, hlen]
  rfl

/-- A hash that tells the names apart. -/
def cameraHash (name : List UInt8) : ℕ :=
  if name = asBytes "odom" then 7 else if name = asBytes (cameraName "a") then 9 else 10

/-- A hash that the cameras share. -/
def rigHash (name : List UInt8) : ℕ := if name = asBytes "odom" then 7 else 9

theorem apart_rig (n : ℕ) : Apart cameraHash (rigTree n).names := by
  have hnames : (rigTree n).names = [cameraName "a", cameraName "b", "odom"] := by
    show ([cameraName "a", cameraName "b", "odom", "odom", cameraName "a", "odom", cameraName "b"] :
      List String).foldl pushName [] = _
    decide
  rw [hnames]
  exact ⟨by decide, by decide⟩

set_option maxRecDepth 100000 in
theorem built_rig : ∀ ts ∈ rigs, ((rigTree (ts.length - 1)).buildWith cameraHash
    (Vector.replicate 16 0) 0).any (fun built => built.toOption.isSome) = true := by
  decide +kernel

theorem buildable_rig {ts : List (String × BitVec 64)} (hts : ts ∈ rigs) :
    (rigTree (ts.length - 1)).Buildable cameraHash := by
  have hbuilt := built_rig ts hts
  rcases TreeBuilder.buildWith_ends _ (apart_rig _) (Vector.replicate 16 0) 0 with
    ⟨hable, -⟩ | ⟨-, e, herror⟩
  · exact hable
  · rw [herror] at hbuilt
    cases hbuilt

/-- One stamp does not fill a ring. -/
theorem not_fillsRing_rig {ts : List (String × BitVec 64)} (hts : ts ∈ rigs) :
    ¬ FillsRing .default (ts.map filmedRecord) ("odom", cameraName "a") := by
  obtain ⟨-, -, -, -, -, -, hone⟩ := edges_rig ts hts
  rintro ⟨hnodup, j, hlen⟩
  rw [List.dedup_eq_self.mpr hnodup, List.length_map, hlen] at hone
  have htwo := Nat.pow_le_pow_right Nat.two_pos (Nat.succ_le_succ (Nat.zero_le j))
  omega

/-- The second picture of the first camera is the one that can be looked up. -/
theorem fill_recalls_retaken : ∃ st r,
    fill tfCrates .default (rigRecording retaken) (rigSurvey retaken) 0 (fun _ => none) cameraHash
      (Vector.replicate 16 0) 0 = some (.ok st) ∧
    st.tree.Attaches ((rigTree 2).idOf (cameraName "a")) ((rigTree 2).idOf "odom") r ∧
    (r.sample ScLerp.eval lastShot.ns .error).run RingOp.exec st.tree.arena.rings =
      some (.ok (isoFromCanonical lastShot.pose), st.tree.arena.rings) ∧
    r.oldestStamp.run RingOp.exec st.tree.arena.rings =
      some (some lastShot.ns, st.tree.arena.rings) ∧
    st.pushed + st.duplicates = 3 := by
  have hts : retaken ∈ rigs := by decide
  obtain ⟨-, ⟨e, he, hkey, hdyn, holdest⟩, htotal⟩ := pass_rig retaken hts
  obtain ⟨-, -, -, -, -, hlast, -⟩ := edges_rig retaken hts
  have htree : treeOf .default (retaken.map filmedRecord) = rigTree 2 := treeOf_rig hts
  have hapart : Apart cameraHash (treeOf .default (retaken.map filmedRecord)).names :=
    htree ▸ apart_rig 2
  rcases fill_recalls (survey_rig hts) (transformsOf_rig hts) hapart (Vector.replicate 16 0) 0
      (fun _ => none) 0 with ⟨-, st, hfill, hreads, hall⟩ | ⟨hnot, -⟩
  · have hedge : (rigSurvey retaken).frames.edge e.1 = ("odom", cameraName "a") := hkey
    have hread := hreads e he hdyn
    rw [htree, show (rigSurvey retaken).frames.name e.1.2 = cameraName "a" from
        congrArg Prod.snd hedge, show (rigSurvey retaken).frames.name e.1.1 = "odom" from
        congrArg Prod.fst hedge, hedge, holdest] at hread
    obtain ⟨r, hattaches, hback, hold⟩ := hread (not_fillsRing_rig hts) ScLerp.eval .error
    exact ⟨st, r, hfill, hattaches, hback _ hlast, hold, hall.trans htotal⟩
  · exact absurd (htree ▸ buildable_rig hts) hnot

/-- No edge of the two pictures has one stamp twice. -/
theorem nodup_shots (k : String × String) :
    ((samplesOf .default (shots.map filmedRecord) k).map Sample.ns).Nodup := by
  obtain ⟨-, hkeys, -, hfirst, hsecond, -⟩ := edges_rig shots (by decide)
  have hone : ∀ xs : List (Sample (BitVec 64)), xs.length = 1 → (xs.map Sample.ns).Nodup := by
    intro xs hxs
    obtain ⟨x, rfl⟩ := List.length_eq_one_iff.mp hxs
    exact List.nodup_singleton x.ns
  by_cases hk : k ∈ [("odom", cameraName "a"), ("odom", cameraName "b")]
  · simp only [List.mem_cons, List.not_mem_nil, or_false] at hk
    rcases hk with rfl | rfl
    · exact hone _ hfirst
    · exact hone _ hsecond
  · have hnil : recordsOf .default (shots.map filmedRecord) k = [] :=
      not_not.mp (mt recordsOf_ne_nil.mp (mt hkeys.mem_iff.mp hk))
    rw [samplesOf, hnil]
    exact List.nodup_nil

/-- And none is static. -/
theorem dynamic_rig {ts : List (String × BitVec 64)} {k : String × String}
    {rec : RawRecord (BitVec 64)} (hrec : rec ∈ recordsOf .default (ts.map filmedRecord) k) :
    rec.isStatic ≠ true := by
  obtain ⟨t, -, rfl⟩ := List.mem_map.mp (mem_recordsOf.mp hrec).1
  exact Bool.false_ne_true

/-- The pictures in the other order, within the smallest memory, fill the same arena. -/
theorem fill_order_free_shots : ∃ st st',
    fill tfCrates { IngestOptions.default with maxMemoryBytes := 1048576 } (rigRecording shots)
      (rigSurvey shots) 0 (fun _ => none) cameraHash (Vector.replicate 16 0) 0 = some (.ok st) ∧
    fill tfCrates { IngestOptions.default with maxMemoryBytes := 0 } (rigRecording shots.reverse)
      (rigSurvey shots.reverse) 0 (fun _ => none) cameraHash (Vector.replicate 16 0) 0 =
        some (.ok st') ∧
    st.tree.arena = st'.tree.arena := by
  have hts : shots ∈ rigs := by decide
  have hts' : shots.reverse ∈ rigs := by decide
  have htree : treeOf .default (shots.map filmedRecord) = rigTree 1 := treeOf_rig hts
  have hread : transformsOf tfCrates { IngestOptions.default with maxMemoryBytes := 1048576 }
      (rigRecording shots) = shots.map filmedRecord :=
    (transformsOf_cap _).trans (transformsOf_rig hts)
  have hread' : transformsOf tfCrates { IngestOptions.default with maxMemoryBytes := 0 }
      (rigRecording shots.reverse) = shots.reverse.map filmedRecord :=
    (transformsOf_cap _).trans (transformsOf_rig hts')
  have hsurvey : survey tfCrates { IngestOptions.default with maxMemoryBytes := 1048576 } .default
      (rigRecording shots) = .ok (rigSurvey shots) := (survey_cap _).trans (survey_rig hts)
  have hsurvey' : survey tfCrates { IngestOptions.default with maxMemoryBytes := 0 } .default
      (rigRecording shots.reverse) = .ok (rigSurvey shots.reverse) :=
    (survey_cap _).trans (survey_rig hts')
  have hapart : Apart cameraHash (treeOf .default (shots.map filmedRecord)).names :=
    htree ▸ apart_rig 1
  rcases fill_order_free .default 1048576 0 hsurvey hsurvey' hread hread'
      ((List.reverse_perm shots).symm.map _) nodup_shots
      (fun k rec hrec rec' _ hstatic => absurd hstatic (dynamic_rig hrec))
      hapart (Vector.replicate 16 0) 0 (fun _ => none) (fun _ => none) 0 0
    with ⟨-, st, st', hfill, hfill', harena⟩ | ⟨hnot, -⟩
  · exact ⟨st, st', hfill, hfill', harena⟩
  · exact absurd (htree ▸ buildable_rig hts) hnot

/-! ## Two cameras with one id -/

/-- The two recordings of two pictures. -/
def pairs : List (List (String × BitVec 64)) := [shots, shots.reverse]

theorem mem_rigs {ts : List (String × BitVec 64)} (hts : ts ∈ pairs) : ts ∈ rigs := by
  revert ts
  decide

/-- The sample of a slot. -/
def shotAt (ts : List (String × BitVec 64)) (slot : ℕ) : Sample (BitVec 64) :=
  sampleOf (filmedRecord (ts.getD slot ("", 0)))

/-- One turn of the loop over the buffers, for the sample of a slot. -/
def rigTurn (ts : List (String × BitVec 64)) (st : FillState (BitVec 64) × ℕ) (slot : ℕ) :
    FillM (FillState (BitVec 64) × ℕ) := do
  let fill ← withWriter 0 (rigSurvey ts) slot
    (fun filled => fillSorted (feedSample fun _ => none) filled [shotAt ts slot])
    (st.1.peak (st.2 + SAMPLE_BYTES))
  return (fill, st.2 - SAMPLE_BYTES)

/-- The fill of the tree where the cameras have one id. -/
def rigFill (ts : List (String × BitVec 64)) : FillM (FillState (BitVec 64)) :=
  match (rigTree 1).buildWith rigHash (Vector.replicate 16 0) 0 with
  | none => none
  | some (.error e) => some (.error (.build e))
  | some (.ok a) => do
    let (fill, _) ← [0, 1].foldlM (rigTurn ts)
      (⟨⟨a, fun _ => .new, 0⟩, 0, 1, 0, 0, 0⟩, 2 * SAMPLE_BYTES)
    return fill

/-- Both cameras are the frame 1, and its ring has the picture `x`. -/
def Shows (x : BitVec 64) (st : FillState (BitVec 64)) : Prop :=
  (1 < st.tree.arena.table.maxFrames ∧ st.tree.arena.topology.mem.block.parent 1 = 2 ∧
    st.tree.arena.topology.mem.block.edgeOfChild 1 = 2 ∧
    (st.tree.arena.handle 2).map (fun r => (r.edge, r.capacity)) = some (2, 1)) ∧
  (∀ last ∈ ["a", "b"],
    (st.tree.arena.find 0 (asBytes (cameraName last))).map Except.toOption =
      some (FrameId.new 1)) ∧
  (st.tree.arena.find 0 (asBytes "odom")).map Except.toOption = some (FrameId.new 2) ∧
  (((⟨2, 1⟩ : SampleRing (BitVec 64)).sample ScLerp.eval 5 .error).run RingOp.exec
    st.tree.arena.rings).map (fun out => out.1.toOption.map fun p => p.t.x) = some (some x)

instance (x : BitVec 64) (st : FillState (BitVec 64)) : Decidable (Shows x st) :=
  inferInstanceAs (Decidable (_ ∧ _))

set_option maxRecDepth 100000 in
/-- What the surveys plan and gather, and what the fills leave. -/
theorem merged_rig : ∀ ts ∈ pairs,
    ((rigPass ts).edges.map fun e => (e.2.staticPose, e.2.samples)) = [(none, 1), (none, 1)] ∧
      (∀ slot ∈ [0, 1], ((ts.map filmedRecord).foldl (Gather.step (rigSurvey ts))
        ⟨IngestOptions.default.normalizer,
          fun slot => if slot ∈ [0, 1] then some [] else none⟩).buffers slot =
            some [shotAt ts slot]) ∧
      (Option.any (fun out => out.toOption.any fun st =>
        decide (Shows ((ts.getD 1 ("", 0)).2) st)) (rigFill ts)) = true := by
  decide +kernel

/-- Both edges go into one group. -/
theorem groups_rig {ts : List (String × BitVec 64)} (hts : ts ∈ pairs) :
    ∃ slots, slots.Perm [0, 1] ∧ planGroups (planned (rigSurvey ts))
      (canonicalOrder (rigSurvey ts)) IngestOptions.default.maxMemoryBytes.toNat =
        some [.inMemory slots] := by
  obtain ⟨hrows, -⟩ := merged_rig ts hts
  have hplanned : planned (rigSurvey ts) = [⟨none, 1⟩, ⟨none, 1⟩] := by
    have hmap := congrArg (List.map fun row : Option (Fin 7 → BitVec 64) × ℕ =>
      (⟨row.1, UInt64.ofNat row.2⟩ : EdgeSurvey (BitVec 64))) hrows
    rw [List.map_map] at hmap
    exact hmap
  have horder : (canonicalOrder (rigSurvey ts)).Perm [0, 1] := by
    have hperm := canonicalOrder_perm (rigSurvey ts)
    have hlen : (rigSurvey ts).edges.length = 2 := by
      have hlen := congrArg List.length hrows
      rwa [List.length_map] at hlen
    rwa [hlen] at hperm
  refine ⟨_, horder, ?_⟩
  rw [hplanned]
  have hmem : canonicalOrder (rigSurvey ts) ∈ [[0, 1], [1, 0]] := List.mem_permutations'.mpr horder
  generalize canonicalOrder (rigSurvey ts) = order at hmem
  have hsorted : packingOf ([⟨none, 1⟩, ⟨none, 1⟩] : List (EdgeSurvey (BitVec 64))) order =
      order := by
    unfold packingOf
    refine List.mergeSort_of_pairwise ?_
    revert order
    decide
  rw [planGroups, hsorted]
  clear hsorted
  revert order
  decide

/-- The fill of two pictures. -/
theorem fill_rig {ts : List (String × BitVec 64)} (hts : ts ∈ pairs) :
    fill tfCrates .default (rigRecording ts) (rigSurvey ts) 0 (fun _ => none) rigHash
      (Vector.replicate 16 0) 0 = rigFill ts := by
  have hrig := mem_rigs hts
  obtain ⟨-, hbuffers, -⟩ := merged_rig ts hts
  obtain ⟨slots, hslots, hplan⟩ := groups_rig hts
  have htree : builder (rigSurvey ts) = rigTree 1 := by
    have hs := surveyed_of_survey (survey_rig hrig)
    have hlen : ∀ ts ∈ pairs, ts.length - 1 = 1 := by decide
    rw [transformsOf_rig hrig] at hs
    rw [hs.builder, treeOf_rig hrig, hlen ts hts]
  have hsort : slots.dedup.mergeSort (keyLe fun slot => slot) = [0, 1] :=
    mergeSort_eq (fun _ _ hab => hab) hslots.dedup (by decide)
  have hread := readTfWith_ok (scan_rig hrig) (Gather.step (rigSurvey ts))
    ⟨IngestOptions.default.normalizer, fun slot => if slot ∈ [0, 1] then some [] else none⟩
  rw [transformsOf_rig hrig] at hread
  generalize (ts.map filmedRecord).foldl (Gather.step (rigSurvey ts)) _ = g at hread hbuffers
  have hturn : ∀ st : FillState (BitVec 64) × ℕ, ∀ slot ∈ [0, 1],
      fillBuffer (rigSurvey ts) 0 (fun _ => none) g.buffers st slot = rigTurn ts st slot := by
    intro st slot hslot
    have hone : sortRun [shotAt ts slot] = [shotAt ts slot] := List.mergeSort_singleton _
    unfold fillBuffer rigTurn fillInMemory
    rw [hbuffers slot hslot]
    dsimp only [Option.getD_some]
    rw [hone, List.length_singleton, Nat.one_mul]
  have hloop : ∀ st, [0, 1].foldlM (fillBuffer (rigSurvey ts) 0 (fun _ => none) g.buffers) st =
      [0, 1].foldlM (rigTurn ts) st := by
    intro st
    simp only [List.foldlM_cons, List.foldlM_nil, hturn _ 0 List.mem_cons_self,
      hturn _ 1 (List.mem_of_getLast? rfl)]
  have hheld : ([0, 1].map fun slot => ((g.buffers slot).getD []).length * SAMPLE_BYTES).sum =
      2 * SAMPLE_BYTES := by
    rw [List.map_cons, List.map_singleton, hbuffers 0 List.mem_cons_self,
      hbuffers 1 (List.mem_of_getLast? rfl), Option.getD_some, Option.getD_some,
      List.length_singleton, List.length_singleton, Nat.one_mul, Nat.two_mul, List.sum_pair]
  have hgroup : ∀ st, fillGroup tfCrates .default (rigRecording ts) (rigSurvey ts) 0
      (fun _ => none) slots st = do
        let (fill, _) ← [0, 1].foldlM (rigTurn ts)
          ({ st with passes := st.passes + 1 }, 2 * SAMPLE_BYTES)
        return fill := by
    intro st
    unfold fillGroup
    rw [hsort]
    dsimp only
    rw [hread]
    dsimp only
    rw [hheld, hloop]
  unfold fill rigFill
  rw [htree, hplan]
  cases (rigTree 1).buildWith rigHash (Vector.replicate 16 0) 0 with
  | none => rfl
  | some built =>
    cases built with
    | error e => rfl
    | ok a =>
      exact (bind_pure _).trans (hgroup _)

/-- Both fills go through, and the picture of the last slot is the one that is shown. -/
theorem shows_rig {ts : List (String × BitVec 64)} (hts : ts ∈ pairs) :
    ∃ st, fill tfCrates .default (rigRecording ts) (rigSurvey ts) 0 (fun _ => none) rigHash
      (Vector.replicate 16 0) 0 = some (.ok st) ∧ Shows ((ts.getD 1 ("", 0)).2) st := by
  obtain ⟨-, -, hany⟩ := merged_rig ts hts
  rw [fill_rig hts]
  cases hout : rigFill ts with
  | none =>
    rw [hout] at hany
    cases hany
  | some out =>
    rw [hout] at hany
    cases out with
    | error e => cases hany
    | ok st => exact ⟨st, rfl, of_decide_eq_true hany⟩

/-- What the frame of the first camera is found to have. -/
theorem Shows.attaches {x : BitVec 64} {st : FillState (BitVec 64)} (h : Shows x st) :
    st.tree.Attaches 1 2 ⟨2, 1⟩ := by
  obtain ⟨⟨hlt, hparent, hedge, hhandle⟩, -⟩ := h
  obtain ⟨⟨edge, capacity⟩, hring, heq⟩ := Option.map_eq_some_iff.mp hhandle
  cases heq
  exact ⟨hlt, hparent, hedge, by decide, hring⟩

/-- The edge of the first camera reads back the picture of the second one: their names have one
hash and are stored alike, so that they are one frame, whose edge is the second one's. -/
theorem cameras_forgotten : ∃ st e r,
    survey tfCrates .default .default (rigRecording shots) = .ok (rigSurvey shots) ∧
    fill tfCrates .default (rigRecording shots) (rigSurvey shots) 0 (fun _ => none) rigHash
      (Vector.replicate 16 0) 0 = some (.ok st) ∧
    e ∈ (rigSurvey shots).edges ∧ e.2.staticPose = none ∧
    (rigSurvey shots).frames.edge e.1 = ("odom", cameraName "a") ∧
    ¬ FillsRing .default (shots.map filmedRecord) ("odom", cameraName "a") ∧
    (st.tree.arena.find 0 (asBytes (cameraName "a"))).map Except.toOption = some (some 1) ∧
    (st.tree.arena.find 0 (asBytes "odom")).map Except.toOption = some (some 2) ∧
    st.tree.Attaches 1 2 r ∧
    ¬ ReadsBack .default (shots.map filmedRecord) ("odom", cameraName "a") e.2.sourceOldestNs
      st.tree.arena.rings ScLerp.eval .error r := by
  have hts : shots ∈ rigs := by decide
  obtain ⟨-, ⟨e, he, hkey, hdyn, -⟩, -⟩ := pass_rig shots hts
  obtain ⟨-, -, -, -, -, hlast, -⟩ := edges_rig shots hts
  obtain ⟨st, hfill, hshows⟩ := shows_rig (show shots ∈ pairs by decide)
  refine ⟨st, e, _, survey_rig hts, hfill, he, hdyn, hkey, not_fillsRing_rig hts,
    hshows.2.1 "a" (by decide), hshows.2.2.1, hshows.attaches, fun hback => ?_⟩
  have hread := hshows.2.2.2
  rw [show ((5 : ℤ) = lastShot.ns) from rfl, hback.1 _ hlast] at hread
  have hsame : (isoFromCanonical lastShot.pose).t.x = 200 :=
    Option.some_inj.mp (Option.some_inj.mp hread)
  revert hsame
  decide

/-- Two orders of one recording show two pictures. -/
theorem cameras_ordered : ∃ st st',
    survey tfCrates .default .default (rigRecording shots) = .ok (rigSurvey shots) ∧
    survey tfCrates .default .default (rigRecording shots.reverse) = .ok (rigSurvey shots.reverse) ∧
    (transformsOf tfCrates .default (rigRecording shots) : List (RawRecord (BitVec 64))).Perm
      (transformsOf tfCrates .default (rigRecording shots.reverse)) ∧
    (∀ k, ((samplesOf .default (transformsOf tfCrates .default (rigRecording shots) :
      List (RawRecord (BitVec 64))) k).map Sample.ns).Nodup) ∧
    (∀ rec ∈ (transformsOf tfCrates .default (rigRecording shots) : List (RawRecord (BitVec 64))),
      rec.isStatic = false) ∧
    fill tfCrates .default (rigRecording shots) (rigSurvey shots) 0 (fun _ => none) rigHash
      (Vector.replicate 16 0) 0 = some (.ok st) ∧
    fill tfCrates .default (rigRecording shots.reverse) (rigSurvey shots.reverse) 0 (fun _ => none)
      rigHash (Vector.replicate 16 0) 0 = some (.ok st') ∧
    st.tree.arena.rings ≠ st'.tree.arena.rings := by
  have hts : shots ∈ rigs := by decide
  have hts' : shots.reverse ∈ rigs := by decide
  obtain ⟨st, hfill, -, -, -, hshows⟩ := shows_rig (show shots ∈ pairs by decide)
  obtain ⟨st', hfill', -, -, -, hshows'⟩ := shows_rig (show shots.reverse ∈ pairs by decide)
  rw [transformsOf_rig hts, transformsOf_rig hts']
  refine ⟨st, st', survey_rig hts, survey_rig hts', (List.reverse_perm shots).symm.map _,
    nodup_shots, fun rec hrec => ?_, hfill, hfill', fun hrings => ?_⟩
  · obtain ⟨t, -, rfl⟩ := List.mem_map.mp hrec
    rfl
  · rw [hrings, hshows'] at hshows
    revert hshows
    decide

end TfTree.Offline
