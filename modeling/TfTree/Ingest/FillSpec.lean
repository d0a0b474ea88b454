import Mathlib
import TfTree.Data.OkPrefix
import TfTree.Ingest.Filled

/-!
# What a fill leaves in the tree

The reads of pass two, and the groups one after the other: which rings are fed with what when the
edges of some slots are filled, and how much memory that takes.

Results:
* `Surveyed.gathered`, `Surveyed.scattered`: a read brings every edge its samples.
* `Filling.fillGroup`, `Filling.fillSpilledEdge`: a group in memory, and an edge that is spilled.
* `residentBytes_le`, `reducePeak_le`: no merge holds more than the cap.
* `Filling.fill`: a fill feeds every edge of the plan, within the cap.
-/

namespace TfTree.Offline

open Data Mcap Bridge Conc

variable {F : Type}

/-! ## The reads -/

/-- The samples of an edge, in the order of the recording. -/
def samplesOf (opts : IngestOptions) (recs : List (RawRecord F)) (k : String × String) :
    List (Sample F) := ((recordsOf opts recs k).filter isSample).map sampleOf

/-- The record is a sample of the edge. -/
def SampleFor (opts : IngestOptions) (k : String × String) (rec : RawRecord F) : Prop :=
  isSample rec = true ∧ nameKey opts rec = some k

instance (opts : IngestOptions) (k : String × String) (rec : RawRecord F) :
    Decidable (SampleFor opts k rec) := inferInstanceAs (Decidable (_ ∧ _))

section Reads

variable {opts : IngestOptions} {recs : List (RawRecord F)} {s : Survey F} {slot : ℕ}
  {e : EdgeKey × SurveyRow F} {rec : RawRecord F}

theorem samplesOf_concat (rec : RawRecord F) (k : String × String) :
    samplesOf opts (recs ++ [rec]) k = samplesOf opts recs k ++
      if SampleFor opts k rec then [sampleOf rec] else [] := by
  unfold samplesOf
  by_cases hfor : SampleFor opts k rec
  · obtain ⟨hsample, hk⟩ := hfor
    rw [if_pos ⟨hsample, hk⟩, recordsOf_concat hk, if_pos rfl, List.filter_append, List.map_append,
      List.filter_cons_of_pos hsample]
    rfl
  · rw [if_neg hfor, List.append_nil]
    rcases Option.eq_none_or_eq_some (nameKey opts rec) with hk | ⟨k', hk⟩
    · rw [recordsOf, named_concat, hk, List.append_nil]
      rfl
    · rw [recordsOf_concat hk, List.filter_append, List.map_append]
      by_cases hkk : k' = k
      · have hsample : isSample rec = false := by
          cases hsample : isSample rec with
          | true => exact absurd ⟨hsample, hkk ▸ hk⟩ hfor
          | false => rfl
        rw [if_pos hkk, List.filter_cons_of_neg (by simp [hsample])]
        simp
      · rw [if_neg hkk]
        simp

/-- The edges of a survey are different. -/
theorem Surveyed.nodup (h : Surveyed opts recs s) :
    (s.edges.map fun e => s.frames.edge e.1).Nodup := by
  rw [h.edges]
  exact nodup_firstSeen _

theorem Surveyed.nodup_keys (h : Surveyed opts recs s) : (s.edges.map Prod.fst).Nodup := by
  have hnodup : ((s.edges.map Prod.fst).map s.frames.edge).Nodup := by
    rw [List.map_map]
    exact h.nodup
  exact hnodup.of_map _

/-- The index has the slot of an edge. -/
theorem Surveyed.indexOf (h : Surveyed opts recs s) {key : EdgeKey} :
    Offline.indexOf s key = some slot ↔ ∃ row, s.edges[slot]? = some (key, row) := by
  have hfold : ∀ edges : List (EdgeKey × SurveyRow F), (edges.map Prod.fst).Nodup →
      ∀ key : EdgeKey, edges.zipIdx.foldl
        (fun (index : EdgeKey → Option ℕ) e => Function.update index e.1.1 (some e.2))
        (fun _ => none) key = position (edges.map Prod.fst) key := by
    intro edges
    induction edges using List.reverseRecOn with
    | nil => exact fun _ _ => rfl
    | append_singleton edges e ih =>
      intro hnodup key
      rw [List.map_append, List.nodup_append] at hnodup
      obtain ⟨hold, -, hnew⟩ := hnodup
      have he : e.1 ∉ edges.map Prod.fst := fun hmem =>
        hnew _ hmem _ (List.mem_singleton_self _) rfl
      rw [List.zipIdx_append, List.foldl_append, List.map_append]
      show Function.update (edges.zipIdx.foldl _ fun _ => none) e.1 (some (0 + edges.length)) key =
        position (_ ++ [e.1]) key
      by_cases hkey : key = e.1
      · subst hkey
        rw [Function.update_self, position_concat he, List.length_map, Nat.zero_add]
      · rw [Function.update_of_ne hkey, ih hold]
        cases hpos : position (edges.map Prod.fst) key with
        | some i => rw [position_append _ hpos]
        | none =>
          refine (position_eq_none.mpr ?_).symm
          rw [List.mem_append, List.mem_singleton]
          rintro (hmem | heq)
          · exact position_eq_none.mp hpos hmem
          · exact hkey heq
  unfold Offline.indexOf
  rw [hfold s.edges h.nodup_keys, position_eq_some h.nodup_keys, List.getElem?_map,
    Option.map_eq_some_iff]
  constructor
  · rintro ⟨⟨key', row⟩, hget, rfl⟩
    exact ⟨row, hget⟩
  · rintro ⟨row, hget⟩
    exact ⟨_, hget, rfl⟩

/-- A record is looked up as a sample of its edge. -/
theorem Surveyed.lookup (h : Surveyed opts recs s) {n : NameNormalizer}
    (hn : n.tfPrefix = opts.normalizer.tfPrefix) (rec : RawRecord F) :
    (lookup s.frames n rec).2.tfPrefix = opts.normalizer.tfPrefix ∧
      ∀ e ∈ s.edges, (lookup s.frames n rec).1 = some e.1 ↔
        SampleFor opts (s.frames.edge e.1) rec := by
  by_cases hskip : rec.isStatic ∨ rec.stampNs = 0
  · have hsample : isSample rec = false := by
      unfold isSample stampOf
      rcases hskip with hstatic | hzero
      · rw [hstatic]
        rfl
      · rw [hzero]
        simp
    unfold Offline.lookup
    rw [if_pos hskip]
    refine ⟨hn, fun e _ => ⟨fun heq => ?_, fun hfor => ?_⟩⟩
    · cases heq
    · cases hsample.symm.trans hfor.1
  · have hsample : isSample rec = true := by
      have hstamp : stampOf rec ≠ 0 := by
        intro hzero
        exact hskip (.inr (Int64.toInt_inj.mp hzero))
      unfold isSample
      simp only [not_or, Bool.not_eq_true] at hskip
      rw [hskip.1]
      simpa using hstamp
    unfold Offline.lookup
    rw [if_neg hskip]
    have hparent := n.normalize_eq rec.parent
    have htf := n.normalize_tfPrefix rec.parent
    generalize n.normalize rec.parent = r at hparent htf
    obtain ⟨parent, n₁⟩ := r
    dsimp only
    have hchild := n₁.normalize_eq rec.child
    have htf' := n₁.normalize_tfPrefix rec.child
    generalize n₁.normalize rec.child = r at hchild htf'
    obtain ⟨child, n₂⟩ := r
    dsimp only at hparent htf hchild htf' ⊢
    rw [hn] at hparent htf
    rw [htf] at hchild htf'
    refine ⟨htf', fun e he => ?_⟩
    obtain ⟨p, c, hp, hc⟩ := h.known e he
    have hedge : s.frames.edge e.1 = (p, c) := by
      rw [Frames.edge, Frames.name_eq hp, Frames.name_eq hc]
    have hkey : SampleFor opts (s.frames.edge e.1) rec ↔
        parent.map Normalized.name = some p ∧ child.map Normalized.name = some c := by
      unfold SampleFor nameKey
      rw [and_iff_right hsample, ← hparent, ← hchild, hedge]
      cases parent with
      | none => simp
      | some parent =>
        cases child with
        | none => simp
        | some child => simp
    rw [hkey]
    cases parent with
    | none => simp
    | some parent =>
      cases child with
      | none => simp
      | some child =>
        have hid : ∀ (name : String) (i : ℕ), s.frames.id name = some i ↔
            s.frames.names[i]? = some name := by
          intro name i
          rw [Frames.id, h.frames.index, position_eq_some h.frames.nodup]
        show ((s.frames.id parent.name).bind fun i => (s.frames.id child.name).bind fun j =>
          some (i, j)) = some e.1 ↔ some parent.name = some p ∧ some child.name = some c
        constructor
        · intro hkey
          obtain ⟨i, hi, hkey⟩ := Option.bind_eq_some_iff.mp hkey
          obtain ⟨j, hj, hkey⟩ := Option.bind_eq_some_iff.mp hkey
          have hij := Option.some_inj.mp hkey
          rw [← hij] at hp hc
          exact ⟨((hid _ _).mp hi).symm.trans hp, ((hid _ _).mp hj).symm.trans hc⟩
        · rintro ⟨hpname, hcname⟩
          rw [Option.some_inj.mp hpname, Option.some_inj.mp hcname, (hid _ _).mpr hp,
            (hid _ _).mpr hc]
          rfl

/-- An edge has one slot. -/
theorem Surveyed.slot_inj (h : Surveyed opts recs s) {key : EdgeKey} {slot' : ℕ}
    {row row' : SurveyRow F} (hslot : s.edges[slot]? = some (key, row))
    (hslot' : s.edges[slot']? = some (key, row')) : slot = slot' := by
  have hat := h.indexOf.mpr ⟨row, hslot⟩
  have hat' := h.indexOf.mpr ⟨row', hslot'⟩
  exact Option.some_inj.mp (hat.symm.trans hat')

/-- A sample goes to the buffer of its edge. -/
theorem Surveyed.gather (h : Surveyed opts recs s) {g : Gather F}
    (hn : g.normalizer.tfPrefix = opts.normalizer.tfPrefix) (rec : RawRecord F) :
    (g.step s rec).normalizer.tfPrefix = opts.normalizer.tfPrefix ∧
      ∀ slot e, s.edges[slot]? = some e → (g.step s rec).buffers slot = (g.buffers slot).map
        (· ++ if SampleFor opts (s.frames.edge e.1) rec then [sampleOf rec] else []) := by
  obtain ⟨htf, hkey⟩ := h.lookup hn rec
  unfold Gather.step
  generalize Offline.lookup s.frames g.normalizer rec = r at htf hkey
  obtain ⟨key, n⟩ := r
  dsimp only at htf hkey ⊢
  -- a buffer that stays
  have hstays : ∀ (slot : ℕ) (e : EdgeKey × SurveyRow F),
      (SampleFor opts (s.frames.edge e.1) rec → g.buffers slot = none) →
      g.buffers slot = (g.buffers slot).map
        (· ++ if SampleFor opts (s.frames.edge e.1) rec then [sampleOf rec] else []) := by
    intro slot e hnone
    by_cases hfor : SampleFor opts (s.frames.edge e.1) rec
    · rw [hnone hfor]
      rfl
    · rw [if_neg hfor]
      simp
  cases hslot : key.bind (Offline.indexOf s) with
  | none =>
    refine ⟨htf, fun slot e he => hstays slot e fun hfor => ?_⟩
    rw [(hkey e (List.mem_of_getElem? he)).mpr hfor, Option.bind_some,
      h.indexOf.mpr ⟨e.2, he⟩] at hslot
    cases hslot
  | some slot' =>
    obtain ⟨k, rfl, hindex⟩ := Option.bind_eq_some_iff.mp hslot
    obtain ⟨row, hrow⟩ := h.indexOf.mp hindex
    have hsame : ∀ slot e, s.edges[slot]? = some e → SampleFor opts (s.frames.edge e.1) rec →
        slot = slot' := by
      intro slot e he hfor
      have hk := Option.some_inj.mp ((hkey e (List.mem_of_getElem? he)).mpr hfor)
      have he' : s.edges[slot]? = some (k, e.2) := by
        rw [hk]
        exact he
      exact h.slot_inj he' hrow
    dsimp only
    cases hbuf : g.buffers slot' with
    | none =>
      refine ⟨htf, fun slot e he => hstays slot e fun hfor => ?_⟩
      rw [hsame slot e he hfor]
      exact hbuf
    | some buf =>
      refine ⟨htf, fun slot e he => ?_⟩
      by_cases hs : slot = slot'
      · subst hs
        cases hrow.symm.trans he
        show Function.update g.buffers slot _ slot = _
        rw [Function.update_self, hbuf, if_pos ((hkey _ (List.mem_of_getElem? he)).mp rfl)]
        rfl
      · show Function.update g.buffers slot' _ slot = _
        rw [Function.update_of_ne hs]
        exact hstays slot e fun hfor => absurd (hsame slot e he hfor) hs

/-- The buffers of a group hold the samples of their edges. -/
theorem Surveyed.gathered (h : Surveyed opts recs s) (recs' : List (RawRecord F)) {g : Gather F}
    (hn : g.normalizer.tfPrefix = opts.normalizer.tfPrefix) :
    (recs'.foldl (Gather.step s) g).normalizer.tfPrefix = opts.normalizer.tfPrefix ∧
      ∀ slot e, s.edges[slot]? = some e → (recs'.foldl (Gather.step s) g).buffers slot =
        (g.buffers slot).map (· ++ samplesOf opts recs' (s.frames.edge e.1)) := by
  induction recs' using List.reverseRecOn with
  | nil => exact ⟨hn, fun slot e _ => by simp [samplesOf, recordsOf, named, groupOf]⟩
  | append_singleton recs' rec ih =>
    obtain ⟨htf, hall⟩ := ih
    rw [List.foldl_append]
    obtain ⟨htf', hstep⟩ := h.gather htf rec
    refine ⟨htf', fun slot e he => ?_⟩
    show (Gather.step s (recs'.foldl (Gather.step s) g) rec).buffers slot = _
    rw [hstep slot e he, hall slot e he, Option.map_map, samplesOf_concat]
    congr 1
    funext buf
    exact List.append_assoc _ _ _

/-- A sample goes to the runs of its edge. -/
theorem Surveyed.scatter [LeBytes F] (h : Surveyed opts recs s) (plan : SpillPlan)
    {g : Scatter F} (hn : g.normalizer.tfPrefix = opts.normalizer.tfPrefix) (he : e ∈ s.edges)
    (rec : RawRecord F) :
    (g.step s plan e.1 rec).normalizer.tfPrefix = opts.normalizer.tfPrefix ∧
      ((g.step s plan e.1 rec).runs, (g.step s plan e.1 rec).buf) =
        (if SampleFor opts (s.frames.edge e.1) rec then [sampleOf rec] else []).foldl
          (spillSample plan) (g.runs, g.buf) := by
  obtain ⟨htf, hkey⟩ := h.lookup hn rec
  unfold Scatter.step
  generalize Offline.lookup s.frames g.normalizer rec = r at htf hkey
  obtain ⟨key, n⟩ := r
  dsimp only at htf hkey ⊢
  by_cases hfor : SampleFor opts (s.frames.edge e.1) rec
  · rw [if_pos ((hkey e he).mpr hfor), if_pos hfor]
    exact ⟨htf, rfl⟩
  · rw [if_neg (mt (hkey e he).mp hfor), if_neg hfor]
    exact ⟨htf, rfl⟩

/-- The runs of an edge are those of its samples. -/
theorem Surveyed.scattered [LeBytes F] (h : Surveyed opts recs s) (plan : SpillPlan)
    (recs' : List (RawRecord F)) {g : Scatter F}
    (hn : g.normalizer.tfPrefix = opts.normalizer.tfPrefix) (he : e ∈ s.edges) :
    (recs'.foldl (Scatter.step s plan e.1) g).normalizer.tfPrefix = opts.normalizer.tfPrefix ∧
      ((recs'.foldl (Scatter.step s plan e.1) g).runs,
          (recs'.foldl (Scatter.step s plan e.1) g).buf) =
        (samplesOf opts recs' (s.frames.edge e.1)).foldl (spillSample plan) (g.runs, g.buf) := by
  induction recs' using List.reverseRecOn with
  | nil => exact ⟨hn, rfl⟩
  | append_singleton recs' rec ih =>
    obtain ⟨htf, hall⟩ := ih
    obtain ⟨htf', hstep⟩ := h.scatter plan htf he rec
    rw [List.foldl_append, samplesOf_concat, List.foldl_append, ← hall]
    exact ⟨htf', hstep⟩

/-- A read whose callback accepts every transform of a recording that can be read. -/
theorem readTfWith_ok [LeBytes F] {σ : Type} {crates : Crates} {file : List UInt8}
    (hscan : (scan crates opts file : _ × ReadState F).1 = .ok ()) (f : σ → RawRecord F → σ)
    (init : σ) :
    readTfWith crates opts.roles opts.readPolicy file
        (fun st rec => (.ok (f st rec) : Except (Stop SurveyError) σ)) init =
      .ok ((scan crates opts file : _ × ReadState F).2.skips,
        (transformsOf crates opts file).foldl f init) := by
  have hfold : ∀ recs : List (RawRecord F), recs.foldlM
      (fun st rec => (.ok (f st rec) : Except (Stop SurveyError) σ)) init =
        .ok (recs.foldl f init) := fun recs => List.foldlM_pure
  rw [readTfWith_eq, hfold]
  unfold scan at hscan
  rw [hscan]
  rfl

end Reads

/-! ## The pushes -/

/-- The samples of the edge of a slot. -/
def slotSamples (opts : IngestOptions) (recs : List (RawRecord F)) (s : Survey F) (slot : ℕ) :
    List (Sample F) := (s.edges[slot]?).elim [] fun e => samplesOf opts recs (s.frames.edge e.1)

/-- What the ring of an edge is fed with, when the edges of the slots `done` are filled. -/
def fedBy (opts : IngestOptions) (recs : List (RawRecord F)) (s : Survey F) (done : List ℕ)
    (e : EdgeId) : List (Sample F) :=
  (done.find? fun slot => edgeIdOf s slot = e).elim [] fun slot =>
    replay (slotSamples opts recs s slot)

/-- The edges of the slots `done` are filled, within the cap. -/
structure Filling [Libm F] (opts : IngestOptions) (recs : List (RawRecord F)) (s : Survey F)
    (a : Arena F) (done : List ℕ) (st : FillState F) : Prop where
  rings : RingsFed a (fedBy opts recs s done) st.tree
  owned : WriterSys.Owned ⟨st.tree, []⟩
  pushed : st.pushed = (done.map fun slot => (replay (slotSamples opts recs s slot)).length).sum
  balanced : st.pushed + st.duplicates =
    (done.map fun slot => (slotSamples opts recs s slot).length).sum
  peak : st.peakBufferBytes ≤ capOf opts.maxMemoryBytes.toNat

section Pushes

variable {opts : IngestOptions} {recs : List (RawRecord F)} {s : Survey F} {slot : ℕ}
  {e : EdgeKey × SurveyRow F} {done : List ℕ}

theorem slotSamples_eq (he : s.edges[slot]? = some e) :
    slotSamples opts recs s slot = samplesOf opts recs (s.frames.edge e.1) := by
  rw [slotSamples, he]
  rfl

theorem Surveyed.length_slotSamples (h : Surveyed opts recs s) (he : s.edges[slot]? = some e) :
    (slotSamples opts recs s slot).length = e.2.samples := by
  rw [slotSamples_eq he, samplesOf, List.length_map,
    (h.reports e (List.mem_of_getElem? he)).samples]

theorem fedBy_of_not_mem {e : EdgeId} (h : ∀ slot ∈ done, edgeIdOf s slot ≠ e) :
    fedBy opts recs s done e = [] := by
  have hnone : (done.find? fun slot => edgeIdOf s slot = e) = none := by
    rw [List.find?_eq_none]
    simpa using h
  rw [fedBy, hnone]
  rfl

theorem fedBy_of_mem (hdone : ∀ slot ∈ done, slot < s.edges.length) (hslot : slot ∈ done) :
    fedBy opts recs s done (edgeIdOf s slot) = replay (slotSamples opts recs s slot) := by
  have hsome : (done.find? fun slot' => edgeIdOf s slot' = edgeIdOf s slot) = some slot := by
    cases hfind : done.find? fun slot' => edgeIdOf s slot' = edgeIdOf s slot with
    | none => simpa using List.find?_eq_none.mp hfind slot hslot
    | some slot' =>
      have hsame : edgeIdOf s slot' = edgeIdOf s slot := by simpa using List.find?_some hfind
      rw [edgeIdOf_inj (hdone slot' (List.mem_of_find?_eq_some hfind)) hsame]
  rw [fedBy, hsome]
  rfl

/-- One more edge. -/
theorem fedBy_concat (hdone : ∀ slot ∈ done, slot < s.edges.length) (hnew : slot ∉ done) :
    fedBy opts recs s (done ++ [slot]) = upd (fedBy opts recs s done) (edgeIdOf s slot)
      (replay (slotSamples opts recs s slot)) := by
  funext e
  have hfresh : ∀ slot' ∈ done, edgeIdOf s slot' ≠ edgeIdOf s slot := by
    intro slot' hslot' heq
    exact hnew (edgeIdOf_inj (hdone slot' hslot') heq ▸ hslot')
  unfold fedBy
  rw [List.find?_append]
  by_cases he : e = edgeIdOf s slot
  · subst he
    have hnone : (done.find? fun slot' => edgeIdOf s slot' = edgeIdOf s slot) = none := by
      rw [List.find?_eq_none]
      simpa using hfresh
    rw [upd_self, hnone, List.find?_cons_of_pos (by simp)]
    rfl
  · rw [upd_of_ne _ _ he, List.find?_cons_of_neg (by simpa using Ne.symm he), List.find?_nil,
      Option.or_none]

variable [Libm F] {a : Arena F} {st : FillState F}

/-- Before the first edge. -/
theorem Filling.start {hash : List UInt8 → ℕ} {uuid : Vector UInt8 16} {fuel : ℕ}
    {participant : Slot} (hapart : Apart hash (builder s).names)
    (hbuild : (builder s).buildWith hash uuid fuel = some (.ok a)) :
    Filling opts recs s a [] ⟨⟨a, fun _ => .new, participant⟩, 0, 0, 0, 0, 0⟩ := by
  obtain ⟨l, hwired, -, -⟩ := (builder s).wired_of_build hapart hbuild
  refine ⟨⟨rfl, fun e r hr => ?_, fun e _ => rfl⟩,
    WriterSys.owned_ofArena participant hwired.rings, rfl, rfl, Nat.zero_le _⟩
  obtain rfl := Arena.handle_edge hr
  refine .empty ?_
  dsimp only
  rw [hwired.rings]

/-- The fill of one edge. -/
theorem Filling.withWriter {hash : List UInt8 → ℕ} {uuid : Vector UInt8 16} {fuel : ℕ}
    (hapart : Apart hash (builder s).names)
    (hbuild : (builder s).buildWith hash uuid fuel = some (.ok a))
    (h : Filling opts recs s a done st) (hdone : ∀ slot ∈ done, slot < s.edges.length)
    (hnew : slot ∉ done) (he : s.edges[slot]? = some e) (hdyn : e.2.staticPose = none)
    {clock : ℕ → Option ℤ}
    {pushes : Filled (Option (Feed F)) → Except IngestError (Filled (Option (Feed F)))}
    (hpushes : ∀ st, pushes st =
      fillInMemory (feedSample clock) st (slotSamples opts recs s slot)) (fuel' : ℕ) :
    ∃ st', Offline.withWriter fuel' s slot pushes st = some (.ok st') ∧
      Filling opts recs s a (done ++ [slot]) st' ∧ st'.passes = st.passes := by
  have hempty : fedBy opts recs s done (edgeIdOf s slot) = [] := by
    refine fedBy_of_not_mem fun slot' hslot' heq => hnew ?_
    exact edgeIdOf_inj (hdone slot' hslot') heq ▸ hslot'
  obtain ⟨st', hst', hrings, howned, hpushed, hdup, hpasses, hpeak⟩ :=
    withWriter_spec hapart hbuild he hdyn h.rings h.owned hempty hpushes fuel'
  refine ⟨st', hst', ⟨?_, howned, ?_, ?_, hpeak ▸ h.peak⟩, hpasses⟩
  · rw [fedBy_concat hdone hnew]
    exact hrings
  · rw [hpushed, h.pushed, List.map_append, List.sum_append, List.map_singleton, List.sum_singleton]
  · have hall := h.balanced
    rw [List.map_append, List.sum_append, List.map_singleton, List.sum_singleton]
    omega

end Pushes

/-! ## The groups -/

section Groups

variable {opts : IngestOptions} {recs : List (RawRecord F)} {s : Survey F} {slot : ℕ}
  {e : EdgeKey × SurveyRow F} {done slots : List ℕ}

/-- The bytes of the buffer of an edge. -/
def heldOf (opts : IngestOptions) (recs : List (RawRecord F)) (s : Survey F) (slot : ℕ) : ℕ :=
  (slotSamples opts recs s slot).length * SAMPLE_BYTES

/-- The edges of the slots are dynamic, and none of them is filled. -/
structure Pending (s : Survey F) (done slots : List ℕ) : Prop where
  filled : ∀ slot ∈ done, slot < s.edges.length
  nodup : slots.Nodup
  fresh : ∀ slot ∈ slots, slot ∉ done
  dynamic : ∀ slot ∈ slots, ∃ e, s.edges[slot]? = some e ∧ e.2.staticPose = none

theorem Pending.perm {slots' : List ℕ} (h : Pending s done slots) (hperm : slots'.Perm slots) :
    Pending s done slots' where
  filled := h.filled
  nodup := hperm.nodup_iff.mpr h.nodup
  fresh slot hslot := h.fresh slot (hperm.mem_iff.mp hslot)
  dynamic slot hslot := h.dynamic slot (hperm.mem_iff.mp hslot)

/-- The edges in front are filled. -/
theorem Pending.rest {front : List ℕ} (h : Pending s done (front ++ slots)) :
    Pending s (done ++ front) slots where
  filled := by
    intro slot hslot
    rcases List.mem_append.mp hslot with hslot | hslot
    · exact h.filled slot hslot
    · obtain ⟨e, he, -⟩ := h.dynamic slot (List.mem_append_left _ hslot)
      exact (List.getElem?_eq_some_iff.mp he).1
  nodup := (List.nodup_append.mp h.nodup).2.1
  fresh := by
    intro slot hslot hmem
    rcases List.mem_append.mp hmem with hmem | hmem
    · exact h.fresh slot (List.mem_append_right _ hslot) hmem
    · exact (List.nodup_append.mp h.nodup).2.2 slot hmem slot hslot rfl
  dynamic slot hslot := h.dynamic slot (List.mem_append_right _ hslot)

theorem Pending.head (h : Pending s done (slot :: slots)) : Pending s done [slot] where
  filled := h.filled
  nodup := List.nodup_singleton slot
  fresh slot' hslot' := h.fresh slot' (List.mem_singleton.mp hslot' ▸ List.mem_cons_self)
  dynamic slot' hslot' := h.dynamic slot' (List.mem_singleton.mp hslot' ▸ List.mem_cons_self)

/-- The read of a group gathers the samples of its edges. -/
theorem Surveyed.buffers (hs : Surveyed opts recs s) (hpending : Pending s done slots)
    (hslot : slot ∈ slots) : (recs.foldl (Gather.step s)
      ⟨opts.normalizer, fun slot => if slot ∈ slots then some [] else none⟩).buffers slot =
        some (slotSamples opts recs s slot) := by
  obtain ⟨e, he, -⟩ := hpending.dynamic slot hslot
  rw [(hs.gathered _ rfl).2 slot e he, slotSamples_eq he]
  dsimp only
  rw [if_pos hslot]
  rfl

variable [Doubles F] {a : Arena F} {st : FillState F} {hash : List UInt8 → ℕ}
  {uuid : Vector UInt8 16} {fuel : ℕ}

/-- The turn of one buffer. -/
theorem Filling.fillBuffer (hapart : Apart hash (builder s).names)
    (hbuild : (builder s).buildWith hash uuid fuel = some (.ok a))
    (h : Filling opts recs s a done st) (hslot : Pending s done [slot])
    {buffers : ℕ → Option (List (Sample F))}
    (hbuffer : buffers slot = some (slotSamples opts recs s slot)) {remaining : ℕ}
    (hfits : remaining + heldOf opts recs s slot ≤ capOf opts.maxMemoryBytes.toNat)
    (clock : ℕ → Option ℤ) :
    ∃ st', Offline.fillBuffer s fuel clock buffers (st, remaining) slot =
        pure (st', remaining - heldOf opts recs s slot) ∧
      Filling opts recs s a (done ++ [slot]) st' ∧ st'.passes = st.passes := by
  have hpeak : Filling opts recs s a done (st.peak (remaining + heldOf opts recs s slot)) :=
    ⟨h.rings, h.owned, h.pushed, h.balanced, max_le h.peak hfits⟩
  obtain ⟨e, he, hdyn⟩ := hslot.dynamic slot (List.mem_singleton_self slot)
  obtain ⟨st', hst', hfilling, hpasses⟩ := hpeak.withWriter hapart hbuild hslot.filled
    (hslot.fresh slot (List.mem_singleton_self slot)) he hdyn (fun _ => rfl) fuel
  refine ⟨st', ?_, hfilling, hpasses⟩
  unfold Offline.fillBuffer
  rw [hbuffer]
  show (Offline.withWriter fuel s slot (fun filled => fillInMemory (feedSample clock) filled
      (slotSamples opts recs s slot)) (st.peak (remaining + heldOf opts recs s slot)) >>=
    fun fill => pure (fill, remaining - heldOf opts recs s slot)) = _
  rw [hst']
  exact pure_bind st' _

/-- The loop over the buffers: what remains is what the buffers still hold. -/
theorem Filling.fillBuffers (hapart : Apart hash (builder s).names)
    (hbuild : (builder s).buildWith hash uuid fuel = some (.ok a))
    (h : Filling opts recs s a done st) (hpending : Pending s done slots)
    {buffers : ℕ → Option (List (Sample F))}
    (hbuffers : ∀ slot ∈ slots, buffers slot = some (slotSamples opts recs s slot))
    (hfits : ∀ slot ∈ slots, (slots.map (heldOf opts recs s)).sum + heldOf opts recs s slot ≤
      capOf opts.maxMemoryBytes.toNat) (clock : ℕ → Option ℤ) :
    ∃ st' remaining, slots.foldlM (Offline.fillBuffer s fuel clock buffers)
        (st, (slots.map (heldOf opts recs s)).sum) = pure (st', remaining) ∧
      Filling opts recs s a (done ++ slots) st' ∧ st'.passes = st.passes := by
  have hstep : ∀ front slot rest, slots = front ++ slot :: rest → ∀ p : FillState F × ℕ,
      (Filling opts recs s a (done ++ front) p.1 ∧ p.1.passes = st.passes ∧
        p.2 + (front.map (heldOf opts recs s)).sum = (slots.map (heldOf opts recs s)).sum) →
      ∃ p', Offline.fillBuffer s fuel clock buffers p slot = pure p' ∧
        Filling opts recs s a (done ++ (front ++ [slot])) p'.1 ∧ p'.1.passes = st.passes ∧
        p'.2 + ((front ++ [slot]).map (heldOf opts recs s)).sum =
          (slots.map (heldOf opts recs s)).sum := by
    rintro front slot rest hslots ⟨p, remaining⟩ ⟨hfilling, hpasses, hsum⟩
    dsimp only at hfilling hpasses hsum
    have hslot : slot ∈ slots := by simp [hslots]
    have hfit := hfits slot hslot
    subst hslots
    simp only [List.map_append, List.sum_append, List.map_cons, List.sum_cons, List.map_nil,
      List.sum_nil] at hsum hfit ⊢
    obtain ⟨p', hp', hfilling', hpasses'⟩ := hfilling.fillBuffer hapart hbuild hpending.rest.head
      (hbuffers slot hslot) (show remaining + heldOf opts recs s slot ≤ _ by omega) clock
    rw [← List.append_assoc]
    exact ⟨_, hp', hfilling', hpasses'.trans hpasses, by dsimp only; omega⟩
  obtain ⟨⟨st', remaining⟩, hloop, hfilling, hpasses, -⟩ := foldlM_keeps hstep
    (st, (slots.map (heldOf opts recs s)).sum)
    ⟨(List.append_nil done).symm ▸ h, rfl, Nat.add_zero _⟩
  exact ⟨st', remaining, hloop, hfilling, hpasses⟩

/-- A group in memory. -/
theorem Filling.fillGroup [LeBytes F] {crates : Crates} {file : List UInt8}
    (hscan : (scan crates opts file : _ × ReadState F).1 = .ok ())
    (hrecs : transformsOf crates opts file = recs) (hs : Surveyed opts recs s)
    (hapart : Apart hash (builder s).names)
    (hbuild : (builder s).buildWith hash uuid fuel = some (.ok a))
    (h : Filling opts recs s a done st) (hpending : Pending s done slots)
    (hfits : ∀ slot ∈ slots, (slots.map (heldOf opts recs s)).sum + heldOf opts recs s slot ≤
      capOf opts.maxMemoryBytes.toNat) (clock : ℕ → Option ℤ) :
    ∃ st' slots', slots'.Perm slots ∧
      Offline.fillGroup crates opts file s fuel clock slots st = pure st' ∧
      Filling opts recs s a (done ++ slots') st' ∧ st'.passes = st.passes + 1 := by
  have hdedup : slots.dedup = slots := List.dedup_eq_self.mpr hpending.nodup
  have hperm : (slots.mergeSort (keyLe fun slot => slot)).Perm slots := List.mergeSort_perm _ _
  unfold Offline.fillGroup
  rw [hdedup]
  generalize slots.mergeSort (keyLe fun slot => slot) = slots' at hperm ⊢
  have hread := readTfWith_ok hscan (Gather.step s)
    ⟨opts.normalizer, fun slot => if slot ∈ slots' then some [] else none⟩
  have hbuffers : ∀ slot ∈ slots', _ := fun slot hslot => hs.buffers (hpending.perm hperm) hslot
  rw [hrecs] at hread
  generalize recs.foldl (Gather.step s)
    ⟨opts.normalizer, fun slot => if slot ∈ slots' then some [] else none⟩ = g at hread hbuffers
  have hheld : slots'.map (fun slot => ((g.buffers slot).getD []).length * SAMPLE_BYTES) =
      slots'.map (heldOf opts recs s) := by
    refine List.map_congr_left fun slot hslot => ?_
    rw [hbuffers slot hslot]
    rfl
  have hsum := (hperm.map (heldOf opts recs s)).sum_eq
  have hone : Filling opts recs s a done { st with passes := st.passes + 1 } :=
    ⟨h.rings, h.owned, h.pushed, h.balanced, h.peak⟩
  obtain ⟨st', remaining, hloop, hfilling, hpasses⟩ := hone.fillBuffers hapart hbuild
    (hpending.perm hperm) hbuffers (fun slot hslot => hsum ▸ hfits slot (hperm.mem_iff.mp hslot))
    clock
  refine ⟨st', slots', hperm, ?_, hfilling, hpasses⟩
  dsimp only
  rw [hread]
  dsimp only
  rw [hheld, hloop]
  exact pure_bind _ _

end Groups

/-! ## The spills -/

section Spills

/-- No chunk is longer than the number of runs that are merged. -/
theorem length_of_mem_chunks {α : Type} {n : ℕ} (hn : 1 ≤ n) (xs : List α) :
    ∀ c ∈ chunks n xs, c.length ≤ n := by
  fun_induction chunks n xs with
  | case1 => exact List.forall_mem_nil _
  | case2 x xs ih =>
    intro c hc
    rcases List.mem_cons.mp hc with rfl | hc
    · rw [List.length_cons, List.length_take]
      omega
    · exact ih c hc

/-- The reduce passes end with runs that one merge can hold. -/
theorem runs_of_reduce [LeBytes F] {plan : SpillPlan} {runs reduced : RunFile}
    (h : reduce plan F runs = .ok reduced) : reduced.runs.length ≤ plan.fanIn := by
  fun_induction reduce plan F runs with
  | case1 runs hlt e herror => cases h
  | case2 runs hlt next hnext ih => exact ih h
  | case3 runs hle =>
    cases h
    exact not_lt.mp hle

variable {userCap : ℕ}

/-- A merge holds no more than the cap. -/
theorem residentBytes_le (hcap : capOf userCap * 3 < 2 ^ 64) {runs : ℕ}
    (hruns : runs ≤ (SpillPlan.ofCap userCap).fanIn) :
    residentBytes (.ofCap userCap) runs + 2 * (SpillPlan.ofCap userCap).staging ≤
      capOf userCap := by
  have hle := le_capOf userCap
  have hshare : windowShare (capOf userCap) = capOf userCap * 3 / 4 / ENCODED := by
    rw [windowShare, Nat.mod_eq_of_lt hcap]
  have hfan : (SpillPlan.ofCap userCap).fanIn = capOf userCap * 3 / 4 / ENCODED - 1 := by
    show max (windowShare (capOf userCap) - 1) 2 = _
    rw [hshare]
    simp only [ENCODED]
    omega
  have hwindow : (SpillPlan.ofCap userCap).window runs =
      max (capOf userCap * 3 / 4 / ENCODED / (runs + 1)) 1 := by
    show max (windowShare (capOf userCap) / (runs + 1)) 1 = _
    rw [hshare]
  rw [hfan] at hruns
  have hfits := merge_fits hruns
  rw [← hwindow] at hfits
  rw [residentBytes, ← Nat.add_mul, ← Nat.succ_mul]
  exact hfits

theorem foldl_max_le {xs : List ℕ} {n : ℕ} (h : ∀ x ∈ xs, x ≤ n) : xs.foldl max 0 ≤ n := by
  induction xs using List.reverseRecOn with
  | nil => exact Nat.zero_le n
  | append_singleton xs x ih =>
    rw [List.foldl_append]
    refine max_le (ih fun y hy => h y (List.mem_append_left _ hy)) ?_
    exact h x (List.mem_append_right _ (List.mem_singleton_self x))

/-- Neither do the merges of the reduce passes. -/
theorem reducePeak_le [LeBytes F] (hcap : capOf userCap * 3 < 2 ^ 64) (runs : RunFile) :
    reducePeak F (.ofCap userCap) runs ≤ capOf userCap := by
  have hchunks : ∀ runs : RunFile, ((chunks (SpillPlan.ofCap userCap).fanIn runs.runs).map
      fun chunk => residentBytes (.ofCap userCap) chunk.length +
        2 * (SpillPlan.ofCap userCap).staging).foldl max 0 ≤ capOf userCap := by
    intro runs
    refine foldl_max_le fun x hx => ?_
    obtain ⟨chunk, hchunk, rfl⟩ := List.mem_map.mp hx
    have hone : 1 ≤ (SpillPlan.ofCap userCap).fanIn :=
      Nat.le_of_succ_le (SpillPlan.ofCap userCap).two_le_fanIn
    exact residentBytes_le hcap (length_of_mem_chunks hone _ chunk hchunk)
  fun_induction reducePeak F (.ofCap userCap) runs with
  | case1 runs hlt chunked e herror => exact hchunks runs
  | case2 runs hlt chunked next hnext ih => exact max_le (hchunks runs) ih
  | case3 runs hle => exact Nat.zero_le _

variable {opts : IngestOptions} {recs : List (RawRecord F)} {s : Survey F} {slot : ℕ}
  {done : List ℕ} [Doubles F] [LeBytes F] {a : Arena F} {st : FillState F}
  {hash : List UInt8 → ℕ} {uuid : Vector UInt8 16} {fuel : ℕ}

/-- An edge that is spilled. -/
theorem Filling.fillSpilledEdge {crates : Crates} {file : List UInt8}
    (hscan : (scan crates opts file : _ × ReadState F).1 = .ok ())
    (hrecs : transformsOf crates opts file = recs) (hs : Surveyed opts recs s)
    (hapart : Apart hash (builder s).names)
    (hbuild : (builder s).buildWith hash uuid fuel = some (.ok a))
    (h : Filling opts recs s a done st) (hpending : Pending s done [slot])
    (hcap : capOf opts.maxMemoryBytes.toNat * 3 < 2 ^ 64) (clock : ℕ → Option ℤ) :
    ∃ st', Offline.fillSpilledEdge crates opts file s fuel clock slot st = pure st' ∧
      Filling opts recs s a (done ++ [slot]) st' ∧ st'.passes = st.passes + 1 := by
  obtain ⟨e, he, hdyn⟩ := hpending.dynamic slot (List.mem_singleton_self slot)
  obtain ⟨key, row⟩ := e
  obtain ⟨reduced, merged, hreduced, hmerged, hdrain⟩ :=
    drain_eq (.ofCap opts.maxMemoryBytes.toNat) (slotSamples opts recs s slot)
  have hread := readTfWith_ok hscan (Scatter.step s (.ofCap opts.maxMemoryBytes.toNat) key)
    ⟨opts.normalizer, RunFile.create (SpillPlan.ofCap opts.maxMemoryBytes.toNat).staging, []⟩
  have hscattered := (hs.scattered (.ofCap opts.maxMemoryBytes.toNat) recs
    (g := ⟨opts.normalizer, RunFile.create (SpillPlan.ofCap opts.maxMemoryBytes.toNat).staging, []⟩)
    rfl (List.mem_of_getElem? he)).2
  rw [hrecs] at hread
  generalize recs.foldl (Scatter.step s (.ofCap opts.maxMemoryBytes.toNat) key)
    ⟨opts.normalizer, RunFile.create (SpillPlan.ofCap opts.maxMemoryBytes.toNat).staging, []⟩ = g
    at hread hscattered
  have hruns : (if g.buf = [] then g.runs else g.runs.writeRun (sortRun g.buf)) =
      spillRuns (.ofCap opts.maxMemoryBytes.toNat) (slotSamples opts recs s slot) := by
    rw [spillRuns, slotSamples_eq he, ← hscattered]
  have hresident := residentBytes_le hcap (runs_of_reduce hreduced)
  have hspilled : Filling opts recs s a done (((({ st with passes := st.passes + 1 } :
      FillState F).peak _).peak _).peak _) :=
    ⟨h.rings, h.owned, h.pushed, h.balanced, max_le (max_le (max_le h.peak
      (spill_fits opts.maxMemoryBytes.toNat)) (reducePeak_le (F := F) hcap
        (spillRuns (.ofCap opts.maxMemoryBytes.toNat) (slotSamples opts recs s slot))))
      (show residentBytes (.ofCap opts.maxMemoryBytes.toNat) reduced.runs.length +
        (SpillPlan.ofCap opts.maxMemoryBytes.toNat).staging ≤ _ by omega)⟩
  obtain ⟨st', hst', hfilling, hpasses⟩ := hspilled.withWriter hapart hbuild hpending.filled
    (hpending.fresh slot (List.mem_singleton_self slot)) he hdyn
    (fun st => hdrain (feedSample clock) st) fuel
  refine ⟨st', ?_, hfilling, hpasses⟩
  unfold Offline.fillSpilledEdge
  rw [he]
  dsimp only
  rw [hread]
  dsimp only
  rw [hruns, hreduced]
  dsimp only
  rw [hmerged]
  exact hst'

end Spills

/-! ## The plan -/

section Plan

variable {opts : IngestOptions} {recs : List (RawRecord F)} {s : Survey F} {slot : ℕ}
  {e : EdgeKey × SurveyRow F}

/-- The samples of all edges. -/
def sampleTotal (s : Survey F) : ℕ := (s.edges.map fun e => e.2.samples).sum

theorem Surveyed.total (hs : Surveyed opts recs s) : sampleTotal s =
    sumOver (edgeKeys opts recs) fun k => (samplesOf opts recs k).length := by
  rw [sampleTotal, sumOver, ← hs.edges, List.map_map]
  refine congrArg List.sum (List.map_congr_left fun e he => ?_)
  show _ = (samplesOf opts recs (s.frames.edge e.1)).length
  rw [(hs.reports e he).samples, samplesOf, List.length_map]

theorem samples_le (he : s.edges[slot]? = some e) :
    e.2.samples ≤ sampleTotal s :=
  List.le_sum_of_mem (List.mem_map_of_mem (List.mem_of_getElem? he))

/-- The planner knows the edges by their slots. -/
theorem planned_get (he : s.edges[slot]? = some e) :
    (planned s)[slot]? = some ⟨e.2.staticPose, UInt64.ofNat e.2.samples⟩ := by
  rw [planned, List.getElem?_map, he]
  rfl

theorem Surveyed.bufferOf (hs : Surveyed opts recs s) (hsmall : sampleTotal s < 2 ^ 55)
    (he : s.edges[slot]? = some e) :
    TfTree.bufferOf (planned s) slot = heldOf opts recs s slot := by
  have hle := samples_le he
  rw [TfTree.bufferOf, planned_get he, heldOf, hs.length_slotSamples he]
  show (UInt64.ofNat e.2.samples).toNat * SAMPLE_BYTES = _
  rw [UInt64.toNat_ofNat_of_lt' (show _ < 2 ^ 64 by omega)]

/-- The buffers of all edges, twice, are fewer bytes than a `u64` can count. -/
theorem Surveyed.sum_bufferOf (hs : Surveyed opts recs s) (hsmall : sampleTotal s < 2 ^ 55) :
    2 * ((List.range (planned s).length).map (TfTree.bufferOf (planned s))).sum < 2 ^ 64 := by
  have hsame : (List.range (planned s).length).map (TfTree.bufferOf (planned s)) =
      s.edges.map fun e => e.2.samples * SAMPLE_BYTES := by
    refine List.ext_getElem (by simp [planned]) fun slot h h' => ?_
    have hlt : slot < s.edges.length := by simpa using h'
    have he : s.edges[slot]? = some s.edges[slot] := List.getElem?_eq_getElem hlt
    simp only [List.getElem_map, List.getElem_range]
    rw [hs.bufferOf hsmall he, heldOf, hs.length_slotSamples he]
  have hsum : ((List.range (planned s).length).map (TfTree.bufferOf (planned s))).sum =
      sampleTotal s * SAMPLE_BYTES := by rw [hsame, List.sum_map_mul_right, sampleTotal]
  simp only [SAMPLE_BYTES] at hsum
  omega

/-- An edge that the planner takes is dynamic. -/
theorem dynamic_of_live (h : liveAt (planned s) slot = true) :
    ∃ e, s.edges[slot]? = some e ∧ e.2.staticPose = none := by
  unfold liveAt planned at h
  rw [List.getElem?_map] at h
  cases he : s.edges[slot]? with
  | none =>
    rw [he] at h
    cases h
  | some e =>
    rw [he] at h
    refine ⟨e, rfl, ?_⟩
    cases hpose : e.2.staticPose with
    | none => rfl
    | some pose =>
      simp [EdgeSurvey.live, EdgeSurvey.isStatic, hpose] at h

/-- A dynamic edge that the planner leaves out has no samples. -/
theorem Surveyed.slotSamples_of_dead (hs : Surveyed opts recs s) (hsmall : sampleTotal s < 2 ^ 55)
    (he : s.edges[slot]? = some e) (hdyn : e.2.staticPose = none)
    (h : liveAt (planned s) slot = false) : slotSamples opts recs s slot = [] := by
  have hle := samples_le he
  rw [liveAt, planned_get he] at h
  have hzero : UInt64.ofNat e.2.samples = 0 := by
    simpa [EdgeSurvey.live, EdgeSurvey.isStatic, hdyn] using h
  have hnat := congrArg UInt64.toNat hzero
  rw [UInt64.toNat_ofNat_of_lt' (show _ < 2 ^ 64 by omega)] at hnat
  rw [← List.length_eq_zero_iff, hs.length_slotSamples he]
  exact hnat

theorem le_foldl_max {xs : List ℕ} {x : ℕ} (hx : x ∈ xs) : x ≤ xs.foldl max 0 := by
  induction xs using List.reverseRecOn with
  | nil => cases hx
  | append_singleton xs y ih =>
    rw [List.foldl_append]
    rcases List.mem_append.mp hx with hx | hx
    · exact (ih hx).trans (le_max_left _ _)
    · rw [List.mem_singleton.mp hx]
      exact le_max_right _ _

/-- The groups of a plan, one after the other. -/
structure Planned (opts : IngestOptions) (s : Survey F) (groups : List EdgeGroup) : Prop where
  members : ∀ slot, (groups.flatMap EdgeGroup.members).count slot =
    if liveAt (planned s) slot then 1 else 0
  fits : ∀ g ∈ groups, g.Fits (planned s) (capOf opts.maxMemoryBytes.toNat)
  spills : Packing.SpillsLarge (planned s) (capOf opts.maxMemoryBytes.toNat) groups

theorem Surveyed.plan (hs : Surveyed opts recs s) (hsmall : sampleTotal s < 2 ^ 55) :
    ∃ groups, planGroups (planned s) (canonicalOrder s) opts.maxMemoryBytes.toNat = some groups ∧
      Planned opts s groups := by
  have horder : (canonicalOrder s).Perm (List.range (planned s).length) := by
    rw [planned, List.length_map]
    exact canonicalOrder_perm s
  have hcap : capOf opts.maxMemoryBytes.toNat < 2 ^ 64 := by
    have hlt := opts.maxMemoryBytes.toNat_lt
    show max opts.maxMemoryBytes.toNat (16 * ENCODED) < 2 ^ 64
    simp only [ENCODED]
    omega
  obtain ⟨groups, hplan, hmembers, hfits⟩ :=
    planGroups_packed horder hcap (.inr (hs.sum_bufferOf hsmall))
  exact ⟨groups, hplan, hmembers, hfits, planGroups_spilled hplan⟩

theorem Planned.nodup {groups : List EdgeGroup} (h : Planned opts s groups) :
    (groups.flatMap EdgeGroup.members).Nodup := by
  rw [List.nodup_iff_count_le_one]
  intro slot
  rw [h.members]
  split_ifs
  · exact le_rfl
  · exact Nat.zero_le 1

theorem Planned.mem_iff {groups : List EdgeGroup} (h : Planned opts s groups) :
    slot ∈ groups.flatMap EdgeGroup.members ↔ liveAt (planned s) slot = true := by
  rw [← List.count_pos_iff, h.members]
  split_ifs with hlive
  · exact iff_of_true Nat.one_pos hlive
  · exact iff_of_false (lt_irrefl 0) hlive

/-- The next group is pending. -/
theorem Planned.pending {front rest : List EdgeGroup} {g : EdgeGroup} {done : List ℕ}
    (h : Planned opts s (front ++ g :: rest))
    (hdone : done.Perm (front.flatMap EdgeGroup.members)) :
    Pending s done g.members := by
  have hnodup := h.nodup
  rw [List.flatMap_append, List.flatMap_cons, List.nodup_append] at hnodup
  obtain ⟨-, hrest, hapart⟩ := hnodup
  have hlive : ∀ slot ∈ front.flatMap EdgeGroup.members ++ g.members,
      ∃ e, s.edges[slot]? = some e ∧ e.2.staticPose = none := by
    intro slot hslot
    refine dynamic_of_live (h.mem_iff.mp ?_)
    rw [List.flatMap_append, List.flatMap_cons, ← List.append_assoc]
    exact List.mem_append_left _ hslot
  refine ⟨fun slot hslot => ?_, (List.nodup_append.mp hrest).1, fun slot hslot hmem => ?_,
    fun slot hslot => hlive slot (List.mem_append_right _ hslot)⟩
  · obtain ⟨e, he, -⟩ := hlive slot (List.mem_append_left _ (hdone.mem_iff.mp hslot))
    exact (List.getElem?_eq_some_iff.mp he).1
  · exact hapart slot (hdone.mem_iff.mp hmem) slot (List.mem_append_left _ hslot) rfl

variable [Doubles F] [LeBytes F] {a : Arena F} {hash : List UInt8 → ℕ} {uuid : Vector UInt8 16}
  {fuel : ℕ} {crates : Crates} {file : List UInt8}

/-- The next group. -/
theorem Filling.group (hscan : (scan crates opts file : _ × ReadState F).1 = .ok ())
    (hrecs : transformsOf crates opts file = recs) (hs : Surveyed opts recs s)
    (hsmall : sampleTotal s < 2 ^ 55) (hapart : Apart hash (builder s).names)
    (hbuild : (builder s).buildWith hash uuid fuel = some (.ok a)) (clock : ℕ → Option ℤ)
    {front rest : List EdgeGroup} {g : EdgeGroup} (hplanned : Planned opts s (front ++ g :: rest))
    {done : List ℕ} (hdone : done.Perm (front.flatMap EdgeGroup.members)) {st : FillState F}
    (h : Filling opts recs s a done st) :
    ∃ st' done', (match g with
        | .inMemory slots => Offline.fillGroup crates opts file s fuel clock slots st
        | .spilled slot => Offline.fillSpilledEdge crates opts file s fuel clock slot st) =
          pure st' ∧
      done'.Perm ((front ++ [g]).flatMap EdgeGroup.members) ∧ Filling opts recs s a done' st' ∧
      st'.passes = st.passes + 1 := by
  have hg : g ∈ front ++ g :: rest := List.mem_append_right _ List.mem_cons_self
  have hpending := hplanned.pending hdone
  have hfits := hplanned.fits g hg
  rw [List.flatMap_append, List.flatMap_singleton]
  cases g with
  | inMemory slots =>
    have hheld : slots.map (TfTree.bufferOf (planned s)) = slots.map (heldOf opts recs s) := by
      refine List.map_congr_left fun slot hslot => ?_
      obtain ⟨e, he, -⟩ := hpending.dynamic slot hslot
      exact hs.bufferOf hsmall he
    have hpeak : peakOf (planned s) slots ≤ capOf opts.maxMemoryBytes.toNat := hfits
    rw [peakOf, hheld] at hpeak
    have hfit : ∀ slot ∈ slots, (slots.map (heldOf opts recs s)).sum + heldOf opts recs s slot ≤
        capOf opts.maxMemoryBytes.toNat := fun slot hslot =>
      (Nat.add_le_add_left (le_foldl_max (List.mem_map_of_mem hslot)) _).trans hpeak
    obtain ⟨st', slots', hperm, hst', hfilling, hpasses⟩ :=
      h.fillGroup hscan hrecs hs hapart hbuild hpending hfit clock
    exact ⟨st', done ++ slots', hst', hdone.append hperm, hfilling, hpasses⟩
  | spilled slot =>
    obtain ⟨e, he, -⟩ := hpending.dynamic slot (List.mem_singleton_self slot)
    have hlarge := hplanned.spills slot hg
    have hle := samples_le he
    rw [hs.bufferOf hsmall he, heldOf, hs.length_slotSamples he, SAMPLE_BYTES] at hlarge
    obtain ⟨st', hst', hfilling, hpasses⟩ :=
      h.fillSpilledEdge hscan hrecs hs hapart hbuild hpending (by omega) clock
    exact ⟨st', done ++ [slot], hst', hdone.append_right [slot], hfilling, hpasses⟩

/-- One group after the other. -/
theorem Filling.fill (hscan : (scan crates opts file : _ × ReadState F).1 = .ok ())
    (hrecs : transformsOf crates opts file = recs) (hs : Surveyed opts recs s)
    (hsmall : sampleTotal s < 2 ^ 55) (hapart : Apart hash (builder s).names)
    (hbuild : (builder s).buildWith hash uuid fuel = some (.ok a)) (clock : ℕ → Option ℤ)
    (participant : Slot) :
    ∃ st done groups, Offline.fill crates opts file s fuel clock hash uuid participant = pure st ∧
      planGroups (planned s) (canonicalOrder s) opts.maxMemoryBytes.toNat = some groups ∧
      Planned opts s groups ∧ done.Perm (groups.flatMap EdgeGroup.members) ∧
      Filling opts recs s a done st ∧ st.passes = groups.length := by
  obtain ⟨groups, hplan, hplanned⟩ := hs.plan hsmall
  have hstep : ∀ front g rest, groups = front ++ g :: rest → ∀ st : FillState F,
      (∃ done, done.Perm (front.flatMap EdgeGroup.members) ∧ Filling opts recs s a done st ∧
        st.passes = front.length) →
      ∃ st', (match g with
          | .inMemory slots => Offline.fillGroup crates opts file s fuel clock slots st
          | .spilled slot => Offline.fillSpilledEdge crates opts file s fuel clock slot st) =
            pure st' ∧
        ∃ done, done.Perm ((front ++ [g]).flatMap EdgeGroup.members) ∧
          Filling opts recs s a done st' ∧ st'.passes = (front ++ [g]).length := by
    rintro front g rest hgroups st ⟨done, hdone, hfilling, hpasses⟩
    obtain ⟨st', done', hst', hdone', hfilling', hpasses'⟩ := hfilling.group hscan hrecs hs hsmall
      hapart hbuild clock (hgroups ▸ hplanned) hdone
    refine ⟨st', hst', done', hdone', hfilling', ?_⟩
    rw [hpasses', hpasses, List.length_append, List.length_singleton]
  obtain ⟨st, hloop, done, hdone, hfilling, hpasses⟩ :=
    foldlM_keeps hstep ⟨⟨a, fun _ => .new, participant⟩, 0, 0, 0, 0, 0⟩
      ⟨[], .nil, .start hapart hbuild, rfl⟩
  refine ⟨st, done, groups, ?_, hplan, hplanned, hdone, hfilling, hpasses⟩
  unfold Offline.fill
  rw [hbuild]
  dsimp only
  rw [hplan]
  exact hloop

end Plan

end TfTree.Offline
