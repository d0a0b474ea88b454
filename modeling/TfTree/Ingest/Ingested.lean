import Mathlib
import TfTree.Ingest.FillSpec
import TfTree.Math.Screw

/-!
# The tree of a recording

The tree that pass two fills, in terms of the transforms of the recording alone.

Results:
* `Surveyed.builder`: the builder of a survey is that of the names, poses and counts.
* `fill_spec`: a fill goes through exactly when the tree can be built, and what it leaves.
* `fill_reads_iff`: which edges read back all that was recorded.
* `fill_shuffled`: the order of the recording and the memory cap do not show in the arena.
-/

namespace TfTree.Offline

open Data Mcap Bridge Conc

variable {F : Type}

/-! ## The stamps of an edge -/

section Stamps

variable {xs : List (Sample F)}

@[simp] theorem replay_nil : replay ([] : List (Sample F)) = [] := by
  simp [replay, sortRun, lastOfEach]

theorem replay_strict (xs : List (Sample F)) : (replay xs).Pairwise fun a b => a.ns < b.ns :=
  lastOfEach_strict (stableSortOf_sortRun xs).sorted

/-- The last sample of each stamp. -/
theorem mem_replay {x : Sample F} :
    x ∈ replay xs ↔ (xs.filter fun y => y.ns = x.ns).getLast? = some x :=
  (stableSortOf_sortRun xs).mem_lastOfEach

/-- Every stamp stays. -/
theorem mem_stamps_replay {t : ℤ} : t ∈ (replay xs).map Sample.ns ↔ t ∈ xs.map Sample.ns := by
  constructor
  · intro ht
    obtain ⟨x, hx, rfl⟩ := List.mem_map.mp ht
    have hmem := List.mem_of_getLast? (mem_replay.mp hx)
    exact List.mem_map_of_mem (List.mem_of_mem_filter hmem)
  · intro ht
    obtain ⟨x, hx, rfl⟩ := List.mem_map.mp ht
    have hsome : x ∈ xs.filter fun y => y.ns = x.ns := List.mem_filter.mpr ⟨hx, by simp⟩
    obtain ⟨y, hy⟩ := Option.isSome_iff_exists.mp
      (List.getLast?_isSome.mpr (List.ne_nil_of_mem hsome))
    have hyx : y.ns = x.ns := by
      simpa using (List.mem_filter.mp (List.mem_of_getLast? hy)).2
    rw [← hyx] at hy ⊢
    exact List.mem_map_of_mem (mem_replay.mpr hy)

theorem nodup_stamps_replay (xs : List (Sample F)) : ((replay xs).map Sample.ns).Nodup := by
  rw [List.nodup_iff_pairwise_ne, List.pairwise_map]
  exact (replay_strict xs).imp ne_of_lt

/-- What is pushed is one sample of each stamp. -/
theorem length_replay (xs : List (Sample F)) :
    (replay xs).length = (xs.map Sample.ns).dedup.length := by
  have hperm : ((replay xs).map Sample.ns).Perm (xs.map Sample.ns).dedup :=
    (List.perm_ext_iff_of_nodup (nodup_stamps_replay xs) (List.nodup_dedup _)).mpr fun t => by
      rw [mem_stamps_replay, List.mem_dedup]
  rw [← hperm.length_eq, List.length_map]

theorem length_replay_eq_iff : (replay xs).length = xs.length ↔ (xs.map Sample.ns).Nodup := by
  rw [length_replay]
  constructor
  · intro h
    have heq := (List.dedup_sublist (xs.map Sample.ns)).eq_of_length (by rw [h, List.length_map])
    exact heq ▸ List.nodup_dedup _
  · intro h
    rw [List.dedup_eq_self.mpr h, List.length_map]

theorem length_replay_le (xs : List (Sample F)) : (replay xs).length ≤ xs.length := by
  have hle := (List.dedup_sublist (xs.map Sample.ns)).length_le
  rwa [← length_replay, List.length_map] at hle

/-- The first stamp that is pushed is the oldest. -/
theorem head_replay (xs : List (Sample F)) :
    (replay xs).head?.map Sample.ns = (xs.map Sample.ns).min? := by
  have hstrict := replay_strict xs
  have hmem : ∀ t, t ∈ (replay xs).map Sample.ns ↔ t ∈ xs.map Sample.ns :=
    fun t => mem_stamps_replay
  generalize replay xs = zs at hstrict hmem
  cases zs with
  | nil =>
    have hnil : xs.map Sample.ns = [] := by
      rw [List.eq_nil_iff_forall_not_mem]
      exact fun t ht => List.not_mem_nil ((hmem t).mpr ht)
    rw [hnil]
    rfl
  | cons z zs =>
    refine (List.min?_eq_some_iff.mpr ⟨(hmem _).mp List.mem_cons_self, fun t ht => ?_⟩).symm
    rw [← hmem, List.map_cons, List.mem_cons] at ht
    rcases ht with rfl | ht
    · exact le_rfl
    · obtain ⟨y, hy, rfl⟩ := List.mem_map.mp ht
      exact (List.rel_of_pairwise_cons hstrict hy).le

end Stamps

/-! ## The edges by name -/

section Keys

variable (opts : IngestOptions) (recs : List (RawRecord F))

/-- The pose of an edge that is static. -/
def staticPoseOf (k : String × String) : Option (Fin 7 → F) :=
  ((recordsOf opts recs k).find? (·.isStatic)).map (·.pose)

/-- The edges of a recording, in the order of their names. -/
def sortedKeys : List (String × String) :=
  (edgeKeys opts recs).mergeSort (keyLe fun k => (toLex k : Lex (String × String)))

/-- The names of the edge of a slot. -/
def keyAt (s : Survey F) (slot : ℕ) : Option (String × String) :=
  s.edges[slot]?.map fun e => s.frames.edge e.1

/-- The names as they are compared. -/
def lexOf (k : Option (String × String)) : WithBot (Lex (String × String)) := k.map toLex

theorem lexOf_injective : Function.Injective lexOf := Option.map_injective toLex.injective

theorem namesAt_eq (s : Survey F) (slot : ℕ) : namesAt s slot = lexOf (keyAt s slot) := by
  rw [lexOf, keyAt, Option.map_map]
  rfl

variable {opts recs} {s : Survey F} {slot : ℕ} {e : EdgeKey × SurveyRow F} {k : String × String}

theorem sortedKeys_perm : (sortedKeys opts recs).Perm (edgeKeys opts recs) :=
  List.mergeSort_perm _ _

theorem mem_sortedKeys : k ∈ sortedKeys opts recs ↔ k ∈ edgeKeys opts recs :=
  sortedKeys_perm.mem_iff

theorem nodup_sortedKeys : (sortedKeys opts recs).Nodup :=
  sortedKeys_perm.nodup_iff.mpr edgeKeys_nodup

theorem Surveyed.staticPose (hs : Surveyed opts recs s) (he : e ∈ s.edges) :
    e.2.staticPose = staticPoseOf opts recs (s.frames.edge e.1) := (hs.reports e he).staticPose

/-- The slots in canonical order are the edges in the order of their names. -/
theorem Surveyed.canonicalOrder (hs : Surveyed opts recs s) :
    (Offline.canonicalOrder s).map (keyAt s) = (sortedKeys opts recs).map some := by
  have hkeys : (List.range s.edges.length).map (keyAt s) = (edgeKeys opts recs).map some := by
    rw [← hs.edges, List.map_map]
    refine List.ext_getElem (by simp) fun slot h h' => ?_
    have hlt : slot < s.edges.length := by simpa using h'
    simp only [List.getElem_map, List.getElem_range, Function.comp_apply]
    rw [keyAt, List.getElem?_eq_getElem hlt]
    rfl
  have hperm := (canonicalOrder_perm s).map (keyAt s)
  rw [hkeys] at hperm
  have hslots : ((Offline.canonicalOrder s).map (keyAt s)).Pairwise
      fun k k' => lexOf k ≤ lexOf k' := by
    refine List.pairwise_map.mpr ?_
    refine (stableSortOf_mergeSort (namesAt s) (List.range s.edges.length)).sorted.imp ?_
    intro slot slot' hab
    rwa [namesAt_eq, namesAt_eq] at hab
  have hsorted : ((sortedKeys opts recs).map some).Pairwise fun k k' => lexOf k ≤ lexOf k' := by
    refine List.pairwise_map.mpr ?_
    refine (stableSortOf_mergeSort (fun k => (toLex k : Lex (String × String)))
      (edgeKeys opts recs)).sorted.imp ?_
    exact fun hab => WithBot.coe_le_coe.mpr hab
  exact (hperm.trans (sortedKeys_perm.map some).symm).eq_of_pairwise
    (fun k k' _ _ hkk' hk'k => lexOf_injective (le_antisymm hkk' hk'k)) hslots hsorted

/-- The slot of the edge with some names is where they are in the sorted list. -/
theorem Surveyed.edgeIdOf (hs : Surveyed opts recs s) (he : s.edges[slot]? = some e) :
    Offline.edgeIdOf s slot = (sortedKeys opts recs).idxOf (s.frames.edge e.1) + 1 := by
  have hslot := mem_canonicalOrder.mpr (List.getElem?_eq_some_iff.mp he).1
  have hat : (sortedKeys opts recs)[(Offline.canonicalOrder s).idxOf slot]? =
      some (s.frames.edge e.1) := by
    have hget := congrArg (·[(Offline.canonicalOrder s).idxOf slot]?) hs.canonicalOrder
    simp only [List.getElem?_map, List.getElem?_idxOf hslot, Option.map_some] at hget
    obtain ⟨k, hk, heq⟩ := Option.map_eq_some_iff.mp hget.symm
    rw [keyAt, he] at heq
    cases heq
    exact hk
  obtain ⟨hlt, hget⟩ := List.getElem?_eq_some_iff.mp hat
  rw [Offline.edgeIdOf, ← hget, nodup_sortedKeys.idxOf_getElem]

/-- The count of an edge is that of its samples. -/
theorem Surveyed.samples (hs : Surveyed opts recs s) (he : e ∈ s.edges) :
    e.2.samples = (samplesOf opts recs (s.frames.edge e.1)).length := by
  rw [samplesOf, List.length_map, (hs.reports e he).samples]

/-- A static edge has no samples. -/
theorem Surveyed.samplesOf_static (hs : Surveyed opts recs s)
    (hstatic : staticPoseOf opts recs k ≠ none) : samplesOf opts recs k = [] := by
  obtain ⟨pose, hpose⟩ := Option.ne_none_iff_exists'.mp hstatic
  obtain ⟨rec, hrec, -⟩ := Option.map_eq_some_iff.mp hpose
  have hmem := List.mem_of_find?_eq_some hrec
  have hone : rec.isStatic = true := List.find?_some hrec
  have hall : ∀ r ∈ recordsOf opts recs k, r.isStatic = true := by
    rcases (hs.admissible k).kind with hall | hnone
    · exact hall
    · cases hone.symm.trans (hnone rec hmem)
  have hnil : (recordsOf opts recs k).filter isSample = [] := by
    rw [List.filter_eq_nil_iff]
    intro r hr
    simp [isSample, hall r hr]
  rw [samplesOf, hnil]
  rfl

/-- What the ring of an edge is fed with. -/
def ringSamples (opts : IngestOptions) (recs : List (RawRecord F)) : EdgeId → List (Sample F)
  | 0 => []
  | i + 1 => ((sortedKeys opts recs)[i]?).elim [] fun k => replay (samplesOf opts recs k)

theorem ringSamples_idxOf (hk : k ∈ edgeKeys opts recs) :
    ringSamples opts recs ((sortedKeys opts recs).idxOf k + 1) =
      replay (samplesOf opts recs k) := by
  rw [ringSamples, List.getElem?_idxOf (mem_sortedKeys.mpr hk)]
  rfl

/-- An edge that is not planned has no samples. -/
theorem Surveyed.slotSamples_unplanned (hs : Surveyed opts recs s) (hsmall : sampleTotal s < 2 ^ 55)
    (h : liveAt (planned s) slot = false) : slotSamples opts recs s slot = [] := by
  cases he : s.edges[slot]? with
  | none => rw [slotSamples, he, Option.elim_none]
  | some e =>
    by_cases hpose : e.2.staticPose = none
    · exact hs.slotSamples_of_dead hsmall he hpose h
    · rw [slotSamples_eq he]
      exact hs.samplesOf_static (hs.staticPose (List.mem_of_getElem? he) ▸ hpose)

/-- When the planned edges are filled, every ring is. -/
theorem Surveyed.fedBy (hs : Surveyed opts recs s) (hsmall : sampleTotal s < 2 ^ 55)
    {done : List ℕ} (hdone : ∀ slot, slot ∈ done ↔ liveAt (planned s) slot = true) :
    Offline.fedBy opts recs s done = ringSamples opts recs := by
  have hlt : ∀ slot ∈ done, slot < s.edges.length := by
    intro slot hslot
    obtain ⟨e, he, -⟩ := dynamic_of_live ((hdone slot).mp hslot)
    exact (List.getElem?_eq_some_iff.mp he).1
  funext id
  by_cases hslot : ∃ slot e, s.edges[slot]? = some e ∧ Offline.edgeIdOf s slot = id
  · obtain ⟨slot, e, he, rfl⟩ := hslot
    have hmem := List.mem_of_getElem? he
    have hkey : s.frames.edge e.1 ∈ edgeKeys opts recs := hs.edges ▸ List.mem_map_of_mem hmem
    by_cases hin : slot ∈ done
    · rw [fedBy_of_mem hlt hin, hs.edgeIdOf he, ringSamples_idxOf hkey, slotSamples_eq he]
    · have hnil := hs.slotSamples_unplanned hsmall (by simpa using mt (hdone slot).mpr hin)
      rw [slotSamples_eq he] at hnil
      rw [fedBy_of_not_mem, hs.edgeIdOf he, ringSamples_idxOf hkey, hnil, replay_nil]
      · exact fun slot' hslot' heq => hin (edgeIdOf_inj (hlt slot' hslot') heq ▸ hslot')
  · rw [fedBy_of_not_mem]
    · cases id with
      | zero => rfl
      | succ i =>
        rw [ringSamples]
        cases hget : (sortedKeys opts recs)[i]? with
        | none => rfl
        | some k =>
          obtain ⟨hi, rfl⟩ := List.getElem?_eq_some_iff.mp hget
          have hkey := mem_sortedKeys.mp (List.getElem_mem hi)
          rw [← hs.edges] at hkey
          obtain ⟨e, he, heq⟩ := List.mem_map.mp hkey
          obtain ⟨slot, hslot'⟩ := List.getElem?_of_mem he
          refine absurd ⟨slot, e, hslot', ?_⟩ hslot
          rw [hs.edgeIdOf hslot', heq, nodup_sortedKeys.idxOf_getElem]
    · intro slot hin heq
      refine hslot ⟨slot, _, List.getElem?_eq_getElem (hlt slot hin), heq⟩

end Keys

/-! ## The builder -/

section Declaration

variable [Libm F] (opts : IngestOptions) (recs : List (RawRecord F))

/-- The declaration of an edge of a recording. -/
def declFor (k : String × String) : EdgeDecl F where
  parent := k.1
  child := k.2
  kind :=
    match staticPoseOf opts recs k with
    | some pose => .static (isoFromCanonical pose)
    | none => .dynamic (.ofSlots (clampU32 (samplesOf opts recs k).length))

/-- The builder of a recording. -/
def treeOf : TreeBuilder F where
  frames := (frameNames opts recs).mergeSort (keyLe fun name => name)
  edges := (sortedKeys opts recs).map (declFor opts recs)

variable {opts recs} {s : Survey F} {e : EdgeKey × SurveyRow F}

theorem Surveyed.declOf (hs : Surveyed opts recs s) (he : e ∈ s.edges) :
    Offline.declOf s e = declFor opts recs (s.frames.edge e.1) := by
  unfold Offline.declOf declFor
  rw [hs.staticPose he, hs.samples he]
  rfl

/-- The builder of a survey is the builder of the recording. -/
theorem Surveyed.builder (hs : Surveyed opts recs s) : Offline.builder s = treeOf opts recs := by
  have hdecls :
      (Offline.canonicalOrder s).filterMap (fun slot => s.edges[slot]?.map (Offline.declOf s)) =
      (sortedKeys opts recs).map (declFor opts recs) := by
    calc (Offline.canonicalOrder s).filterMap (fun slot => s.edges[slot]?.map (Offline.declOf s))
      _ = (Offline.canonicalOrder s).filterMap
            (fun slot => (keyAt s slot).map (declFor opts recs)) := by
          refine List.filterMap_congr fun slot hslot => ?_
          rw [keyAt, List.getElem?_eq_getElem (mem_canonicalOrder.mp hslot)]
          exact congrArg some (hs.declOf (List.getElem_mem _))
      _ = ((sortedKeys opts recs).map some).filterMap (Option.map (declFor opts recs)) := by
          rw [← hs.canonicalOrder, List.filterMap_map]
          rfl
      _ = (sortedKeys opts recs).map (declFor opts recs) := by
          rw [List.filterMap_map]
          exact congrFun List.filterMap_eq_map' _
  unfold Offline.builder treeOf
  rw [hdecls, hs.names]

end Declaration

/-! ## The room of a ring -/

section Room

/-- The rings of an arena are small. -/
theorem slots_lt {b : TreeBuilder F} (hfits : b.Fits) : b.slots < 2 ^ 26 := by
  have hpose : align64 (b.slots * 64) ≤ b.implied.totalSize := by
    rw [TreeBuilder.implied, compute_totalSize]
    refine List.le_sum_of_mem ?_
    simp [computeSizes]
  have hbytes := hfits.bytes
  have hle := le_align64 (b.slots * 64)
  omega

theorem capacity_lt {b : TreeBuilder F} (hfits : b.Fits) {e : EdgeDecl F} (he : e ∈ b.edges) :
    e.capacity < 2 ^ 26 :=
  (List.le_sum_of_mem (List.mem_map_of_mem he)).trans_lt (slots_lt hfits)

/-- So no count of samples is clamped, and the ring has a slot for each. -/
theorem samples_lt {n : ℕ} (h : nextPow2U32 (clampU32 n) < 2 ^ 26) :
    n ≤ nextPow2U32 (clampU32 n) ∧ clampU32 n = n := by
  have hle : min (clampU32 n) (2 ^ 31) ≤ nextPow2U32 (clampU32 n) := by
    obtain ⟨j, hj, hle, -⟩ := nextPow2_spec (clampU32 n)
    unfold nextPow2U32
    split_ifs
    · exact min_le_right _ _
    · rw [hj]
      exact (min_le_left _ _).trans hle
  unfold clampU32 at h hle ⊢
  omega

/-- A rounded ring has room for some of the samples that it was made for, unless they are all of
them, and a power of two. -/
theorem retained_iff {r : SampleRing F} {n d : ℕ} (hn : n ≤ 2 ^ 31)
    (hr : r.capacity = nextPow2U32 n) (hd : d ≤ n) :
    d ≤ r.retained ↔ ¬ (d = n ∧ ∃ j, n = 2 ^ (j + 1)) := by
  obtain ⟨j, hj, hle, hmin⟩ := nextPow2U32_spec hn
  rw [hj] at hr
  unfold SampleRing.retained
  rw [hr]
  cases j with
  | zero =>
    refine iff_of_true ?_ ?_
    · rw [if_neg (by decide)]
      omega
    rintro ⟨-, j, hpow⟩
    have htwo := Nat.pow_le_pow_right Nat.two_pos (Nat.succ_le_succ (Nat.zero_le j))
    omega
  | succ j =>
    have htwo : 2 ≤ 2 ^ (j + 1) :=
      Nat.pow_le_pow_right Nat.two_pos (Nat.succ_le_succ (Nat.zero_le j))
    rw [if_pos (by omega)]
    constructor
    · rintro hroom ⟨hall, i, hpow⟩
      have hexp := eq_of_minimal hle hmin hpow
      rw [← hexp] at hpow
      omega
    · intro hother
      by_contra hfull
      exact hother ⟨by omega, j, by omega⟩

/-- The samples of a recording whose tree is built are few. -/
theorem Surveyed.total_lt [Libm F] {opts : IngestOptions} {recs : List (RawRecord F)} {s : Survey F}
    (hs : Surveyed opts recs s) (hfits : (treeOf opts recs).Fits) : sampleTotal s < 2 ^ 26 := by
  refine lt_of_le_of_lt ?_ (slots_lt hfits)
  rw [hs.total, sumOver, ← (sortedKeys_perm.map _).sum_eq, TreeBuilder.slots]
  show _ ≤ (((sortedKeys opts recs).map (declFor opts recs)).map EdgeDecl.capacity).sum
  rw [List.map_map]
  refine List.sum_le_sum fun k hk => ?_
  have hcap := capacity_lt hfits (e := declFor opts recs k) (List.mem_map_of_mem hk)
  show _ ≤ (declFor opts recs k).capacity
  unfold EdgeDecl.capacity declFor at hcap ⊢
  cases hpose : staticPoseOf opts recs k with
  | some pose =>
    rw [hs.samplesOf_static (by rw [hpose]; exact Option.some_ne_none _)]
    exact Nat.zero_le _
  | none =>
    rw [hpose] at hcap
    exact (samples_lt hcap).1

end Room

/-! ## The fill -/

theorem sum_map_filter {α : Type} {p : α → Bool} {n : α → ℕ} {xs : List α}
    (h : ∀ x ∈ xs, p x = false → n x = 0) : ((xs.filter p).map n).sum = (xs.map n).sum := by
  induction xs with
  | nil => rfl
  | cons x xs ih =>
    have hrest := ih fun y hy => h y (List.mem_cons_of_mem x hy)
    rw [List.map_cons, List.sum_cons, ← hrest]
    cases hx : p x with
    | true => rw [List.filter_cons_of_pos hx, List.map_cons, List.sum_cons]
    | false =>
      rw [List.filter_cons_of_neg (by simp [hx]), h x List.mem_cons_self hx, Nat.zero_add]

/-- The tree on the arena `a` has the samples of the recording, and the counts are those of its
stamps and its samples. -/
structure Ingested [Libm F] (opts : IngestOptions) (recs : List (RawRecord F)) (a : Arena F)
    (st : FillState F) : Prop where
  rings : RingsFed a (ringSamples opts recs) st.tree
  free : ∀ e, (st.tree.claims e).owner = 0
  pushed : st.pushed = sumOver (edgeKeys opts recs) fun k =>
    ((samplesOf opts recs k).map Sample.ns).dedup.length
  balanced : st.pushed + st.duplicates =
    sumOver (edgeKeys opts recs) fun k => (samplesOf opts recs k).length
  peak : st.peakBufferBytes ≤ max opts.maxMemoryBytes.toNat MIN_CAP

section Fill

variable {opts : IngestOptions} {recs : List (RawRecord F)} {s : Survey F} {done : List ℕ}

/-- What is counted of the edges that are filled is counted of all edges. -/
theorem Surveyed.sum_filled (hs : Surveyed opts recs s) (hsmall : sampleTotal s < 2 ^ 55)
    (hdone : done.Nodup) (hmem : ∀ slot, slot ∈ done ↔ liveAt (planned s) slot = true)
    (n : List (Sample F) → ℕ) (hn : n [] = 0) :
    (done.map fun slot => n (slotSamples opts recs s slot)).sum =
      sumOver (edgeKeys opts recs) fun k => n (samplesOf opts recs k) := by
  have hall : (edgeKeys opts recs).map (fun k => n (samplesOf opts recs k)) =
      (List.range s.edges.length).map fun slot => n (slotSamples opts recs s slot) := by
    rw [← hs.edges, List.map_map]
    refine List.ext_getElem (by simp) fun slot h h' => ?_
    have hlt : slot < s.edges.length := by simpa using h
    simp only [List.getElem_map, List.getElem_range, Function.comp_apply]
    rw [slotSamples_eq (List.getElem?_eq_getElem hlt)]
  have hperm : done.Perm ((List.range s.edges.length).filter (liveAt (planned s))) := by
    refine (List.perm_ext_iff_of_nodup hdone (List.nodup_range.filter _)).mpr fun slot => ?_
    rw [hmem, List.mem_filter, List.mem_range, and_iff_right_of_imp]
    intro hlive
    obtain ⟨e, he, -⟩ := dynamic_of_live hlive
    exact (List.getElem?_eq_some_iff.mp he).1
  rw [(hperm.map _).sum_eq, sumOver, hall]
  refine sum_map_filter fun slot _ hdead => ?_
  rw [hs.slotSamples_unplanned hsmall hdead, hn]

variable [Doubles F] [LeBytes F] {hash : List UInt8 → ℕ} {uuid : Vector UInt8 16} {fuel : ℕ}
  {crates : Crates} {file : List UInt8}

/-- The fill of a tree that is built. -/
theorem ingested_of_build (hsurvey : survey crates opts .default file = .ok s)
    (hrecs : transformsOf crates opts file = recs)
    (hapart : Apart hash (treeOf opts recs).names) {a : Arena F}
    (hbuild : (treeOf opts recs).buildWith hash uuid fuel = some (.ok a)) (clock : ℕ → Option ℤ)
    (participant : Slot) :
    ∃ st, fill crates opts file s fuel clock hash uuid participant = some (.ok st) ∧
      Ingested opts recs a st := by
  have hs := surveyed_of_survey hsurvey
  rw [hrecs] at hs
  obtain ⟨l, -, hfits, -⟩ := (treeOf opts recs).wired_of_build hapart hbuild
  have hsmall : sampleTotal s < 2 ^ 55 := (hs.total_lt hfits).trans (by decide)
  rw [← hs.builder] at hapart hbuild
  obtain ⟨st, done, groups, hfill, -, hplanned, hdone, hfilling, -⟩ := Filling.fill
    (survey_eq_ok hsurvey).1 hrecs hs hsmall hapart hbuild clock participant
  have hmem : ∀ slot, slot ∈ done ↔ liveAt (planned s) slot = true := by
    intro slot
    rw [hdone.mem_iff, hplanned.mem_iff]
  have hnodup : done.Nodup := hdone.nodup_iff.mpr hplanned.nodup
  refine ⟨st, hfill, ?_, fun e => ?_, ?_, ?_, hfilling.peak⟩
  · rw [← hs.fedBy hsmall hmem]
    exact hfilling.rings
  · refine hfilling.owned.free e fun i w hlive => ?_
    cases hlive
  · simp only [hfilling.pushed, length_replay]
    exact hs.sum_filled hsmall hnodup hmem (fun xs => (xs.map Sample.ns).dedup.length) rfl
  · rw [hfilling.balanced]
    exact hs.sum_filled hsmall hnodup hmem List.length rfl

/-- No tree is built, and so none is filled. -/
theorem fill_of_error (hs : Surveyed opts recs s) {e : BuildError}
    (hbuild : (treeOf opts recs).buildWith hash uuid fuel = some (.error e)) (clock : ℕ → Option ℤ)
    (participant : Slot) :
    fill crates opts file s fuel clock hash uuid participant = some (.error (.build e)) := by
  rw [← hs.builder] at hbuild
  rw [fill, hbuild]

/-- **Main theorem.** A fill goes through exactly when the tree of the recording can be built. It
leaves every ring with the last sample of each stamp and every claim free, counts every sample
once, and keeps to the memory cap. -/
theorem fill_spec (hsurvey : survey crates opts .default file = .ok s)
    (hrecs : transformsOf crates opts file = recs)
    (hapart : Apart hash (treeOf opts recs).names) (uuid : Vector UInt8 16) (fuel : ℕ)
    (clock : ℕ → Option ℤ) (participant : Slot) :
    ((treeOf opts recs).Buildable hash ∧ ∃ a st,
      (treeOf opts recs).buildWith hash uuid fuel = some (.ok a) ∧
      fill crates opts file s fuel clock hash uuid participant = some (.ok st) ∧
      Ingested opts recs a st) ∨
    (¬ (treeOf opts recs).Buildable hash ∧ ∃ e,
      (treeOf opts recs).buildWith hash uuid fuel = some (.error e) ∧
      fill crates opts file s fuel clock hash uuid participant = some (.error (.build e))) := by
  have hs := surveyed_of_survey hsurvey
  rw [hrecs] at hs
  rcases TreeBuilder.buildWith_ends _ hapart uuid fuel with
    ⟨hable, a, hbuild⟩ | ⟨hunable, e, hbuild⟩
  · obtain ⟨st, hfill, hingested⟩ :=
      ingested_of_build hsurvey hrecs hapart hbuild clock participant
    exact .inl ⟨hable, a, st, hbuild, hfill, hingested⟩
  · exact .inr ⟨hunable, e, hbuild, fill_of_error hs hbuild clock participant⟩

end Fill

/-! ## The reads -/

section Lookups

variable {opts : IngestOptions} {recs : List (RawRecord F)} {s : Survey F} [Doubles F] [LeBytes F]
  {hash : List UInt8 → ℕ} {uuid : Vector UInt8 16} {fuel : ℕ} {crates : Crates}
  {file : List UInt8} {clock : ℕ → Option ℤ} {participant : Slot} {a : Arena F} {st : FillState F}
  {k : String × String}

omit [LeBytes F] in
/-- A dynamic edge of the recording has a ring, in which its samples are. -/
theorem Ingested.ring (h : Ingested opts recs a st) (hapart : Apart hash (treeOf opts recs).names)
    (hbuild : (treeOf opts recs).buildWith hash uuid fuel = some (.ok a))
    (hk : k ∈ edgeKeys opts recs) (hdyn : staticPoseOf opts recs k = none) :
    ∃ r, st.tree.Attaches ((treeOf opts recs).idOf k.2) ((treeOf opts recs).idOf k.1) r ∧
      r.capacity = nextPow2U32 (samplesOf opts recs k).length ∧
      (samplesOf opts recs k).length < 2 ^ 26 ∧ r.PowerOfTwo ∧
      r.Carries st.tree.arena.rings ((replay (samplesOf opts recs k)).map posed) := by
  have hdecl : (treeOf opts recs).edges[(sortedKeys opts recs).idxOf k]? =
      some (declFor opts recs k) := by
    show ((sortedKeys opts recs).map _)[_]? = _
    rw [List.getElem?_map, List.getElem?_idxOf (mem_sortedKeys.mpr hk)]
    rfl
  have hkind : (declFor opts recs k).kind =
      .dynamic (.ofSlots (clampU32 (samplesOf opts recs k).length)) := by
    unfold declFor
    rw [hdyn]
  have hbuilt := (treeOf opts recs).attaches_of_build hapart hbuild hdecl hkind
    st.tree.claims st.tree.participant
  have hattaches := attaches_of_rings hbuilt h.rings.arena
  obtain ⟨l, -, hfits, -⟩ := (treeOf opts recs).wired_of_build hapart hbuild
  have hcap := capacity_lt hfits (List.mem_of_getElem? hdecl)
  rw [EdgeDecl.capacity, hkind] at hcap
  obtain ⟨hroom, hclamp⟩ := samples_lt hcap
  have hpow := Arena.handle_powerOfTwo hbuilt.handle
  have hfed := h.rings.fed _ _ hbuilt.handle
  dsimp only at hfed
  rw [ringSamples_idxOf hk] at hfed
  refine ⟨_, hattaches, ?_, hroom.trans_lt hcap, hpow, hfed.newest.carries hpow⟩
  exact congrArg nextPow2U32 hclamp

/-- A fill that goes through is one of a tree that is built. -/
theorem ingested_of_fill (hsurvey : survey crates opts .default file = .ok s)
    (hrecs : transformsOf crates opts file = recs) (hapart : Apart hash (treeOf opts recs).names)
    (hfill : fill crates opts file s fuel clock hash uuid participant = some (.ok st)) :
    ∃ a, (treeOf opts recs).buildWith hash uuid fuel = some (.ok a) ∧ Ingested opts recs a st := by
  have hs := surveyed_of_survey hsurvey
  rw [hrecs] at hs
  rcases TreeBuilder.buildWith_ends _ hapart uuid fuel with ⟨-, a, hbuild⟩ | ⟨-, e, hbuild⟩
  · obtain ⟨st', hfill', hingested⟩ :=
      ingested_of_build hsurvey hrecs hapart hbuild clock participant
    cases hfill.symm.trans hfill'
    exact ⟨a, hbuild, hingested⟩
  · cases hfill.symm.trans (fill_of_error hs hbuild clock participant)

/-- The ring of an edge reads back every stamp of its samples, each with the last sample, and
begins with the oldest stamp that was recorded. -/
def ReadsBack (opts : IngestOptions) (recs : List (RawRecord F)) (k : String × String)
    (oldest : Option ℤ) (m : RingArena F) (interp : Iso3 F → Iso3 F → F → Iso3 F)
    (policy : ExtrapPolicy) (r : SampleRing F) : Prop :=
  (∀ x, ((samplesOf opts recs k).filter fun y => y.ns = x.ns).getLast? = some x →
    (r.sample interp x.ns policy).run RingOp.exec m = some (.ok (isoFromCanonical x.pose), m)) ∧
  r.oldestStamp.run RingOp.exec m = some (oldest, m)

/-- The samples have as many stamps, and their number is a power of two, two or more. -/
def FillsRing (opts : IngestOptions) (recs : List (RawRecord F)) (k : String × String) : Prop :=
  ((samplesOf opts recs k).map Sample.ns).Nodup ∧ ∃ j, (samplesOf opts recs k).length = 2 ^ (j + 1)

omit [LeBytes F] in
/-- The ring of a dynamic edge reads back what was recorded unless the samples fill it. -/
theorem Ingested.readsBack_iff (h : Ingested opts recs a st)
    (hapart : Apart hash (treeOf opts recs).names)
    (hbuild : (treeOf opts recs).buildWith hash uuid fuel = some (.ok a))
    (hs : Surveyed opts recs s) {e : EdgeKey × SurveyRow F} (he : e ∈ s.edges)
    (hdyn : e.2.staticPose = none) (interp : Iso3 F → Iso3 F → F → Iso3 F)
    (policy : ExtrapPolicy) :
    ∃ r, st.tree.Attaches ((treeOf opts recs).idOf (s.frames.name e.1.2))
        ((treeOf opts recs).idOf (s.frames.name e.1.1)) r ∧
      (ReadsBack opts recs (s.frames.edge e.1) e.2.sourceOldestNs st.tree.arena.rings interp
        policy r ↔ ¬ FillsRing opts recs (s.frames.edge e.1)) := by
  have hkey : s.frames.edge e.1 ∈ edgeKeys opts recs := hs.edges ▸ List.mem_map_of_mem he
  obtain ⟨r, hattaches, hcap, hsmall, hpow, hcarries⟩ :=
    h.ring hapart hbuild hkey (hs.staticPose he ▸ hdyn)
  refine ⟨r, hattaches, ?_⟩
  have hstrict : ((replay (samplesOf opts recs (s.frames.edge e.1))).map posed).Pairwise
      fun a b => a.1 < b.1 := List.pairwise_map.mpr (replay_strict _)
  have hreads := hcarries.reads_all_iff hpow hstrict interp policy
  have hlen := length_replay_le (samplesOf opts recs (s.frames.edge e.1))
  have holdest : e.2.sourceOldestNs =
      (((replay (samplesOf opts recs (s.frames.edge e.1))).map posed).head?).map Prod.fst := by
    rw [(hs.reports e he).oldest, List.head?_map, Option.map_map]
    refine Eq.trans ?_ (head_replay _).symm
    rw [samplesOf, List.map_map]
    rfl
  rw [List.length_map, retained_iff (by omega) hcap hlen, length_replay_eq_iff, ← holdest,
    List.forall_mem_map] at hreads
  simp only [mem_replay] at hreads
  exact hreads

/-- Every stamp of a dynamic edge reads back the last sample of that stamp, and the oldest stamp
that can be read is the oldest that was recorded, unless the edge has a power of two of samples,
two or more, of as many stamps. -/
theorem fill_reads_iff (hsurvey : survey crates opts .default file = .ok s)
    (hrecs : transformsOf crates opts file = recs)
    (hapart : Apart hash (treeOf opts recs).names)
    (hfill : fill crates opts file s fuel clock hash uuid participant = some (.ok st))
    {e : EdgeKey × SurveyRow F} (he : e ∈ s.edges) (hdyn : e.2.staticPose = none)
    (interp : Iso3 F → Iso3 F → F → Iso3 F) (policy : ExtrapPolicy) :
    ∃ r, st.tree.Attaches ((treeOf opts recs).idOf (s.frames.name e.1.2))
        ((treeOf opts recs).idOf (s.frames.name e.1.1)) r ∧
      (((∀ x, ((samplesOf opts recs (s.frames.edge e.1)).filter
            fun y => y.ns = x.ns).getLast? = some x →
          (r.sample interp x.ns policy).run RingOp.exec st.tree.arena.rings =
            some (.ok (isoFromCanonical x.pose), st.tree.arena.rings)) ∧
        r.oldestStamp.run RingOp.exec st.tree.arena.rings =
          some (e.2.sourceOldestNs, st.tree.arena.rings)) ↔
      ¬ (((samplesOf opts recs (s.frames.edge e.1)).map Sample.ns).Nodup ∧
        ∃ j, e.2.samples = 2 ^ (j + 1))) := by
  have hs := surveyed_of_survey hsurvey
  rw [hrecs] at hs
  obtain ⟨a, hbuild, hingested⟩ := ingested_of_fill hsurvey hrecs hapart hfill
  rw [hs.samples he]
  exact hingested.readsBack_iff hapart hbuild hs he hdyn interp policy

end Lookups

/-! ## A recording in another order -/

section Shuffled

variable {opts : IngestOptions} {recs recs' : List (RawRecord F)} {k : String × String}

theorem named_perm (h : recs.Perm recs') : (named opts recs).Perm (named opts recs') :=
  h.filterMap _

theorem samplesOf_perm (h : recs.Perm recs') :
    (samplesOf opts recs k).Perm (samplesOf opts recs' k) :=
  ((((named_perm h).filter _).map _).filter _).map _

theorem sortedKeys_eq (h : recs.Perm recs') : sortedKeys opts recs = sortedKeys opts recs' :=
  mergeSort_eq_of_perm toLex.injective (firstSeen_perm ((named_perm h).map _))

/-- Samples that keep their order where they have one stamp are fed alike. -/
theorem ringSamples_eq (h : recs.Perm recs')
    (hstamps : ∀ k, SameOrder Sample.ns (samplesOf opts recs k) (samplesOf opts recs' k)) :
    ringSamples opts recs = ringSamples opts recs' := by
  have hreplay : ∀ k, replay (samplesOf opts recs k) = replay (samplesOf opts recs' k) := by
    intro k
    rw [replay, replay, ((stableSortOf_sortRun _).of_sameOrder (hstamps k)).unique
      (stableSortOf_sortRun _)]
  funext id
  cases id with
  | zero => rfl
  | succ i => simp only [ringSamples, sortedKeys_eq h, hreplay]

theorem treeOf_eq [Libm F] (h : recs.Perm recs')
    (hstatic : ∀ k, staticPoseOf opts recs k = staticPoseOf opts recs' k) :
    treeOf opts recs = treeOf opts recs' := by
  have hnames : (frameNames opts recs).mergeSort (keyLe fun name => name) =
      (frameNames opts recs').mergeSort (keyLe fun name => name) :=
    mergeSort_eq_of_perm (fun _ _ hab => hab) (firstSeen_perm ((named_perm h).flatMap_right _))
  have hdecls : declFor opts recs = declFor opts recs' := by
    funext k
    unfold declFor
    rw [hstatic, (samplesOf_perm h).length_eq]
  unfold treeOf
  rw [hnames, hdecls, sortedKeys_eq h]

/-- The counts are those of the recording. -/
theorem counts_eq (h : recs.Perm recs') (n : List (Sample F) → ℕ)
    (hn : ∀ k, n (samplesOf opts recs k) = n (samplesOf opts recs' k)) :
    (sumOver (edgeKeys opts recs) fun k => n (samplesOf opts recs k)) =
      sumOver (edgeKeys opts recs') fun k => n (samplesOf opts recs' k) := by
  have hkeys : (edgeKeys opts recs).Perm (edgeKeys opts recs') :=
    firstSeen_perm ((named_perm h).map _)
  rw [sumOver, sumOver, (hkeys.map _).sum_eq]
  simp only [hn]

/-- What two fills leave on one arena is the same under any two caps, where the samples of an edge
with one stamp keep their order. -/
theorem Ingested.agree [Libm F] {cap cap' : UInt64} {a : Arena F} {st st' : FillState F}
    (hst : Ingested { opts with maxMemoryBytes := cap } recs a st)
    (hst' : Ingested { opts with maxMemoryBytes := cap' } recs' a st') (h : recs.Perm recs')
    (hstamps : ∀ k, SameOrder Sample.ns (samplesOf opts recs k) (samplesOf opts recs' k)) :
    st.tree.arena = st'.tree.arena ∧ st.pushed = st'.pushed ∧ st.duplicates = st'.duplicates := by
  have hrings : RingsFed a (ringSamples opts recs) st.tree := hst.rings
  rw [ringSamples_eq h hstamps] at hrings
  have hpushed : st.pushed = st'.pushed := by
    rw [hst.pushed, hst'.pushed]
    exact counts_eq h (fun xs => (xs.map Sample.ns).dedup.length)
      fun k => ((samplesOf_perm h).map Sample.ns).dedup.length_eq
  have hall : st.pushed + st.duplicates = st'.pushed + st'.duplicates := by
    rw [hst.balanced, hst'.balanced]
    exact counts_eq h List.length fun k => (samplesOf_perm h).length_eq
  exact ⟨hrings.unique hst'.rings, hpushed, by omega⟩

variable [Doubles F] [LeBytes F] {hash : List UInt8 → ℕ} {crates crates' : Crates}
  {file file' : List UInt8} {s s' : Survey F}

omit [Doubles F] in
/-- The cap does not matter before the fill. -/
theorem transformsOf_cap (cap : UInt64) : (transformsOf crates
    { opts with maxMemoryBytes := cap } file : List (RawRecord F)) =
      transformsOf crates opts file :=
  rfl

omit [LeBytes F] in
theorem treeOf_cap (cap : UInt64) :
    treeOf { opts with maxMemoryBytes := cap } recs = treeOf opts recs := rfl

theorem survey_cap (cap : UInt64) : (survey crates { opts with maxMemoryBytes := cap } .default
    file : Except SurveyFailure (Survey F)) = survey crates opts .default file := rfl

/-- **Main theorem.** Two recordings of the same transforms, in whatever order, fill the same
arena, word for word, under any two memory caps, where the samples of an edge with one stamp keep
their order and its first static pose is the same; or neither tree can be built, for one reason. -/
theorem fill_shuffled (opts : IngestOptions) (cap cap' : UInt64)
    (hsurvey : survey crates { opts with maxMemoryBytes := cap } .default file = .ok s)
    (hsurvey' : survey crates' { opts with maxMemoryBytes := cap' } .default file' = .ok s')
    (hrecs : transformsOf crates { opts with maxMemoryBytes := cap } file = recs)
    (hrecs' : transformsOf crates' { opts with maxMemoryBytes := cap' } file' = recs')
    (hperm : recs.Perm recs')
    (hstamps : ∀ k, SameOrder Sample.ns (samplesOf opts recs k) (samplesOf opts recs' k))
    (hstatic : ∀ k, staticPoseOf opts recs k = staticPoseOf opts recs' k)
    (hapart : Apart hash (treeOf opts recs).names)
    (uuid : Vector UInt8 16) (fuel : ℕ) (clock clock' : ℕ → Option ℤ)
    (participant participant' : Slot) :
    (∃ st st',
      fill crates { opts with maxMemoryBytes := cap } file s fuel clock hash uuid participant =
          some (.ok st) ∧
        fill crates' { opts with maxMemoryBytes := cap' } file' s' fuel clock' hash uuid
          participant' = some (.ok st') ∧
        st.tree.arena = st'.tree.arena ∧ st.pushed = st'.pushed ∧
          st.duplicates = st'.duplicates) ∨
    ∃ e, fill crates { opts with maxMemoryBytes := cap } file s fuel clock hash uuid participant =
          some (.error (.build e)) ∧
        fill crates' { opts with maxMemoryBytes := cap' } file' s' fuel clock' hash uuid
          participant' = some (.error (.build e)) := by
  have htree := treeOf_eq hperm hstatic
  rcases TreeBuilder.buildWith_ends _ hapart uuid fuel with ⟨-, a, hbuild⟩ | ⟨-, e, hbuild⟩
  · obtain ⟨st, hfill, hst⟩ :=
      ingested_of_build hsurvey hrecs hapart hbuild clock participant
    rw [htree] at hapart hbuild
    obtain ⟨st', hfill', hst'⟩ :=
      ingested_of_build hsurvey' hrecs' hapart hbuild clock' participant'
    exact .inl ⟨st, st', hfill, hfill', hst.agree hst' hperm hstamps⟩
  · have hs := surveyed_of_survey hsurvey
    have hs' := surveyed_of_survey hsurvey'
    rw [hrecs] at hs
    rw [hrecs'] at hs'
    refine .inr ⟨e, fill_of_error hs hbuild clock participant, ?_⟩
    rw [htree] at hbuild
    exact fill_of_error hs' hbuild clock' participant'

end Shuffled

/-! ## The recording of two edges -/

/-- Words with the functions of `libm`; a fill calls the root alone. -/
instance laserDoubles : Doubles (BitVec 64) where
  __ := fixedPoint
  ofScientific m neg e := wordOf ⟨if neg then m * 100 / 10 ^ e else m * 100 * 10 ^ e⟩
  sqrt a := wordOf ⟨(100 * (hundredthsOf a).n).toNat.sqrt⟩
  sin a := a
  cos _ := wordOf 1
  acos a := a
  atan2 a b := wordOf (hundredthsOf a / hundredthsOf b)
  eq a b := a == b

/-- The first eight bytes of the digests of the names. -/
def laserHash (name : List UInt8) : ℕ :=
  if name = asBytes "odom" then 0xf0ffe62bd865533e
  else if name = asBytes "base_link" then 0xefdf060da9bd0bb4
  else if name = asBytes "laser" then 0xb292ee8b5d0ec227
  else 1

/-- The transforms of the recording. -/
def laserTransforms : List (RawRecord (BitVec 64)) := transformsOf tfCrates .default laserRecording

/-- The names, the edges and the stamps the passes find in them. -/
theorem found_laser : frameNames .default laserTransforms = ["odom", "base_link", "laser"] ∧
    edgeKeys .default laserTransforms = [("odom", "base_link"), ("base_link", "laser")] ∧
    (samplesOf .default laserTransforms ("odom", "base_link")).map Sample.ns = [20, 15] ∧
    (samplesOf .default laserTransforms ("base_link", "laser")).map Sample.ns = [] ∧
    staticPoseOf .default laserTransforms ("odom", "base_link") = none ∧
    (staticPoseOf .default laserTransforms ("base_link", "laser")).isSome := by
  rw [laserTransforms, read_laser.2]
  decide

theorem sortedKeys_laser : sortedKeys .default laserTransforms =
    [("base_link", "laser"), ("odom", "base_link")] := by
  obtain ⟨-, hkeys, -⟩ := found_laser
  rw [sortedKeys, hkeys]
  exact mergeSort_eq toLex.injective (List.Perm.swap _ _ _) (by decide)

theorem treeOf_laser : (treeOf .default laserTransforms).frames = ["base_link", "laser", "odom"] ∧
    (treeOf .default laserTransforms).edges =
      [declFor .default laserTransforms ("base_link", "laser"),
        declFor .default laserTransforms ("odom", "base_link")] := by
  obtain ⟨hnames, -⟩ := found_laser
  unfold treeOf
  rw [sortedKeys_laser, hnames]
  exact ⟨mergeSort_eq (fun _ _ hab => hab) (by decide) (by decide), rfl⟩

theorem names_laser :
    (treeOf .default laserTransforms).names = ["base_link", "laser", "odom"] := by
  rw [TreeBuilder.names, treeOf_laser.1, treeOf_laser.2]
  show (["base_link", "laser", "odom", "base_link", "laser", "odom", "base_link"] :
    List String).foldl pushName [] = _
  decide

theorem apart_laser : Apart laserHash (treeOf .default laserTransforms).names := by
  rw [names_laser]
  exact ⟨by decide, by decide⟩

theorem transformsOf_laser : transformsOf tfCrates .default laserRecording = laserTransforms := rfl

theorem slots_laser : (treeOf .default laserTransforms).slots = 2 := by
  obtain ⟨-, -, hstamps, -, hmoved, hmounted⟩ := found_laser
  have hlen : (samplesOf .default laserTransforms ("odom", "base_link")).length = 2 := by
    rw [← List.length_map (f := Sample.ns), hstamps]
    rfl
  obtain ⟨pose, hpose⟩ := Option.isSome_iff_exists.mp hmounted
  rw [TreeBuilder.slots, treeOf_laser.2]
  simp [EdgeDecl.capacity, declFor, hmoved, hpose, hlen, EdgeCfg.ofSlots, Capacity.slots, clampU32,
    nextPow2U32, nextPow2, nextPow2Loop]

/-- The height of a frame. -/
def laserHeight (name : String) : ℕ :=
  if name = "laser" then 2 else if name = "base_link" then 1 else 0

theorem buildable_laser : (treeOf .default laserTransforms).Buildable laserHash where
  fits := by
    refine ⟨?_, ?_, ?_, ?_⟩
    · rw [treeOf_laser.2]
      show (["laser", "base_link"] : List String).Nodup
      decide
    · rw [names_laser]
      decide
    · rw [treeOf_laser.2]
      decide
    · rw [TreeBuilder.implied, names_laser, treeOf_laser.2, slots_laser, compute_totalSize]
      exact lt_of_le_of_lt (computeSizes_le 4 3 defaultMaxParticipants 2) (by decide)
  hashes := by
    rw [hashesOf, names_laser]
    decide
  acyclic := by
    refine TreeBuilder.acyclic_of_height laserHeight ?_
    rintro x y ⟨e, he, rfl, rfl⟩
    rw [treeOf_laser.2] at he
    rcases List.mem_cons.mp he with rfl | he
    · decide
    · rw [List.mem_singleton.mp he]
      decide

theorem build_laser : ∃ a, (treeOf .default laserTransforms).buildWith laserHash
    (Vector.replicate 16 0) 0 = some (.ok a) := by
  rcases TreeBuilder.buildWith_ends _ apart_laser (Vector.replicate 16 0) 0 with
    ⟨-, hok⟩ | ⟨hnot, -⟩
  · exact hok
  · exact absurd buildable_laser hnot

/-- The recording fills the tree of its two edges. -/
theorem fill_spec_laser : ∃ s a st, laserSurvey = .ok s ∧
    fill tfCrates .default laserRecording s 0 (fun _ => none) laserHash (Vector.replicate 16 0) 0 =
      some (.ok st) ∧ Ingested .default laserTransforms a st := by
  obtain ⟨s, hs, -⟩ := laserSurvey_ok
  rcases fill_spec hs transformsOf_laser apart_laser
    (Vector.replicate 16 0) 0 (fun _ => none) 0 with ⟨-, a, st, -, hfill, hst⟩ | ⟨hnot, -⟩
  · exact ⟨s, a, st, hs, hfill, hst⟩
  · exact absurd buildable_laser hnot

/-- Of two samples with two stamps the ring of two slots loses one. -/
theorem fill_reads_iff_laser : ∃ s st e r, laserSurvey = .ok s ∧
    fill tfCrates .default laserRecording s 0 (fun _ => none) laserHash (Vector.replicate 16 0) 0 =
      some (.ok st) ∧ e ∈ s.edges ∧
    st.tree.Attaches ((treeOf .default laserTransforms).idOf "base_link")
      ((treeOf .default laserTransforms).idOf "odom") r ∧
    ¬ ((∀ x, ((samplesOf .default laserTransforms ("odom", "base_link")).filter
          fun y => y.ns = x.ns).getLast? = some x →
        (r.sample ScLerp.eval x.ns .error).run RingOp.exec st.tree.arena.rings =
          some (.ok (isoFromCanonical x.pose), st.tree.arena.rings)) ∧
      r.oldestStamp.run RingOp.exec st.tree.arena.rings =
        some (e.2.sourceOldestNs, st.tree.arena.rings)) := by
  obtain ⟨s, hs, -, -, -, e, he, hkey, hsamples, hdyn⟩ := laserSurvey_ok
  obtain ⟨-, -, hstamps, -⟩ := found_laser
  obtain ⟨a, hbuild⟩ := build_laser
  obtain ⟨st, hfill, -⟩ := ingested_of_build hs transformsOf_laser apart_laser hbuild
    (fun _ => none) 0
  obtain ⟨r, hattaches, hreads⟩ := fill_reads_iff hs transformsOf_laser
    apart_laser hfill he hdyn ScLerp.eval .error
  rw [hkey] at hreads
  have hparent : s.frames.name e.1.1 = "odom" := congrArg Prod.fst hkey
  have hchild : s.frames.name e.1.2 = "base_link" := congrArg Prod.snd hkey
  rw [hparent, hchild] at hattaches
  refine ⟨s, st, e, r, hs, hfill, he, hattaches, fun hall => hreads.mp hall ⟨?_, 0, hsamples⟩⟩
  rw [hstamps]
  decide

/-- The messages of the recording in another order. -/
def shuffledRecording : List UInt8 :=
  recording (atTop [⟨SCHEMA, schemaBody⟩, channelOf 1 "/tf", channelOf 2 "/tf_static",
    messageOf 2 mounted, messageOf 1 (moved 15), messageOf 1 (moved 20),
    messageOf 1 (moved 0)]) true

/-- Its transforms. -/
def shuffledTransforms : List (RawRecord (BitVec 64)) :=
  transformsOf tfCrates .default shuffledRecording

set_option maxRecDepth 20000 in
/-- The same transforms in another order, up to the end of the file. -/
theorem read_shuffled :
    (scan tfCrates .default shuffledRecording : _ × ReadState (BitVec 64)).1.toOption = some () ∧
      shuffledTransforms = [mountedRecord, movedRecord 15, movedRecord 20, movedRecord 0] := by
  decide

theorem perm_shuffled : laserTransforms.Perm shuffledTransforms := by
  rw [laserTransforms, read_laser.2, read_shuffled.2]
  decide

theorem static_shuffled : ∀ k ∈ [("odom", "base_link"), ("base_link", "laser")],
    staticPoseOf .default laserTransforms k = staticPoseOf .default shuffledTransforms k := by
  rw [laserTransforms, read_laser.2, read_shuffled.2]
  decide

theorem survey_shuffled : ∃ s : Survey (BitVec 64),
    survey tfCrates .default .default shuffledRecording = .ok s := by
  obtain ⟨s, hs, -⟩ := survey_of_pass .default (fun _ => true) read_shuffled.1 read_shuffled.2
    (by decide)
  exact ⟨s, hs⟩

/-- What is not named has no records, in whatever order. -/
theorem other_laser {k : String × String}
    (hk : k ∉ [("odom", "base_link"), ("base_link", "laser")]) :
    recordsOf .default laserTransforms k = [] ∧ recordsOf .default shuffledTransforms k = [] := by
  obtain ⟨-, hkeys, -⟩ := found_laser
  have hperm : (edgeKeys .default laserTransforms).Perm (edgeKeys .default shuffledTransforms) :=
    firstSeen_perm ((named_perm perm_shuffled).map _)
  rw [← hkeys] at hk
  exact ⟨not_not.mp (mt recordsOf_ne_nil.mp hk),
    not_not.mp (mt recordsOf_ne_nil.mp (mt hperm.mem_iff.mpr hk))⟩

/-- The shuffled recording, within the smallest memory, fills the same arena. -/
theorem fill_shuffled_laser : ∃ s s' st st', laserSurvey = .ok s ∧
    survey tfCrates .default .default shuffledRecording = .ok s' ∧
    fill tfCrates { IngestOptions.default with maxMemoryBytes := 1048576 } laserRecording s 0
      (fun _ => none) laserHash (Vector.replicate 16 0) 0 = some (.ok st) ∧
    fill tfCrates { IngestOptions.default with maxMemoryBytes := 0 } shuffledRecording s' 0
      (fun _ => none) laserHash (Vector.replicate 16 0) 0 = some (.ok st') ∧
    st.tree.arena = st'.tree.arena := by
  obtain ⟨s, hs, -⟩ := laserSurvey_ok
  obtain ⟨s', hs'⟩ := survey_shuffled
  have hnodup : ∀ k ∈ [("odom", "base_link"), ("base_link", "laser")],
      ((samplesOf .default laserTransforms k).map Sample.ns).Nodup := by
    obtain ⟨-, -, hmoved, hmounted, -⟩ := found_laser
    simp [hmoved, hmounted]
  have hstamps : ∀ k, SameOrder Sample.ns (samplesOf .default laserTransforms k)
      (samplesOf .default shuffledTransforms k) := by
    intro k
    by_cases hk : k ∈ [("odom", "base_link"), ("base_link", "laser")]
    · exact .of_perm (samplesOf_perm perm_shuffled) (hnodup k hk)
    · rw [samplesOf, samplesOf, (other_laser hk).1, (other_laser hk).2]
      exact .refl _
  have hstatic : ∀ k, staticPoseOf .default laserTransforms k =
      staticPoseOf .default shuffledTransforms k := by
    intro k
    by_cases hk : k ∈ [("odom", "base_link"), ("base_link", "laser")]
    · exact static_shuffled k hk
    · rw [staticPoseOf, staticPoseOf, (other_laser hk).1, (other_laser hk).2]
  have hread : transformsOf tfCrates { IngestOptions.default with maxMemoryBytes := 1048576 }
      laserRecording = laserTransforms := transformsOf_cap _
  have hread' : transformsOf tfCrates { IngestOptions.default with maxMemoryBytes := 0 }
      shuffledRecording = shuffledTransforms := transformsOf_cap _
  have hsurvey : survey tfCrates { IngestOptions.default with maxMemoryBytes := 1048576 } .default
      laserRecording = .ok s := (survey_cap _).trans hs
  have hsurvey' : survey tfCrates { IngestOptions.default with maxMemoryBytes := 0 } .default
      shuffledRecording = .ok s' := (survey_cap _).trans hs'
  rcases fill_shuffled .default 1048576 0 hsurvey hsurvey' hread hread' perm_shuffled hstamps
      hstatic apart_laser (Vector.replicate 16 0) 0 (fun _ => none) (fun _ => none) 0 0
    with ⟨st, st', hfill, hfill', harena, -⟩ | ⟨e, hfill, -⟩
  · exact ⟨s, s', st, st', hs, hs', hfill, hfill', harena⟩
  · obtain ⟨a, hbuild⟩ := build_laser
    have htree : treeOf { IngestOptions.default with maxMemoryBytes := 1048576 } laserTransforms =
        treeOf .default laserTransforms := treeOf_cap _
    rw [← htree] at hbuild
    obtain ⟨st, hok, -⟩ := ingested_of_build hsurvey hread
      (htree.symm ▸ apart_laser) hbuild (fun _ => none) 0
    cases hfill.symm.trans hok

end TfTree.Offline
