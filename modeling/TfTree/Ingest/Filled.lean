import Mathlib
import TfTree.Ingest.FillTree
import TfTree.Tree.ClockOffset

/-!
# The pushes of a fill

What one edge of a fill leaves in the tree of the survey: its ring is fed with the last sample
of each stamp, in the order of the stamps, and its claim is free again.

Results:
* `fillInMemory_spec`, `drain_eq`: what a fill pushes, in memory and from a spill.
* `Fed.unique`: the samples that a ring is fed with determine its words.
* `withWriter_spec`: the claim of an edge, its pushes and the drop of the writer.
-/

namespace TfTree.Offline

open Data Mcap Bridge Conc

variable {F : Type}

/-! ## The pushes of an edge -/

/-- What is pushed of the samples of an edge, in this order. -/
def replay (xs : List (Sample F)) : List (Sample F) := lastOfEach Sample.ns (sortRun xs)

section Pushes

variable {σ : Type} {push : σ → Sample F → Except PushError σ} {Inv : σ → List (Sample F) → Prop}

theorem stamp_eq_iff {a b : Sample F} : a.stamp = b.stamp ↔ a.ns = b.ns := Int64.toInt_inj.symm

/-- The loop over a sorted buffer pushes the last sample of each stamp. -/
theorem fillSorted_spec (hpush : ∀ st zs s, Inv st zs → (∀ a ∈ zs, a.ns ≤ s.ns) →
      ∃ st', push st s = .ok st' ∧ Inv st' (zs ++ [s]))
    {xs : List (Sample F)} (hxs : xs.Pairwise fun a b => a.ns ≤ b.ns) (st : Filled σ)
    {zs : List (Sample F)} (h : Inv st.ring zs) (hzs : ∀ a ∈ zs, ∀ b ∈ xs, a.ns ≤ b.ns) :
    ∃ st', fillSorted push st xs = .ok st' ∧ Inv st'.ring (zs ++ lastOfEach Sample.ns xs) ∧
      st'.pushed = st.pushed + (lastOfEach Sample.ns xs).length ∧
      st'.duplicates + (lastOfEach Sample.ns xs).length = st.duplicates + xs.length := by
  induction xs generalizing st zs with
  | nil =>
    refine ⟨st, rfl, ?_, rfl, rfl⟩
    rw [lastOfEach, List.append_nil]
    exact h
  | cons x xs ih =>
    have hrest : ∀ a ∈ zs, ∀ b ∈ xs, a.ns ≤ b.ns :=
      fun a ha b hb => hzs a ha b (List.mem_cons_of_mem x hb)
    have hsame : (xs.head?.any fun next => next.stamp = x.stamp) =
        xs.head?.any fun y => y.ns = x.ns := by
      simp only [stamp_eq_iff]
    unfold fillSorted lastOfEach
    rw [hsame]
    split_ifs with hkept
    · obtain ⟨st', hfill, hinv, hpushed, hdup⟩ :=
        ih hxs.of_cons { st with duplicates := st.duplicates + 1 } h hrest
      refine ⟨st', hfill, hinv, hpushed, ?_⟩
      dsimp only at hdup
      rw [hdup, List.length_cons]
      omega
    · obtain ⟨ring, hx, hring⟩ := hpush st.ring zs x h fun a ha => hzs a ha x List.mem_cons_self
      have hlate : ∀ a ∈ zs ++ [x], ∀ b ∈ xs, a.ns ≤ b.ns := by
        intro a ha b hb
        rcases List.mem_append.mp ha with ha | ha
        · exact hrest a ha b hb
        · rw [List.mem_singleton.mp ha]
          exact List.rel_of_pairwise_cons hxs hb
      obtain ⟨st', hfill, hinv, hpushed, hdup⟩ :=
        ih hxs.of_cons { st with ring := ring, pushed := st.pushed + 1 } hring hlate
      dsimp only at hpushed hdup
      refine ⟨st', ?_, ?_, ?_, ?_⟩
      · rw [pushSample, hx]
        exact hfill
      · rw [List.append_assoc] at hinv
        exact hinv
      · rw [hpushed, List.length_cons]
        omega
      · rw [List.length_cons, List.length_cons]
        omega

/-- A fill pushes the last sample of each stamp, in the order of the stamps. -/
theorem fillInMemory_spec (hpush : ∀ st zs s, Inv st zs → (∀ a ∈ zs, a.ns ≤ s.ns) →
      ∃ st', push st s = .ok st' ∧ Inv st' (zs ++ [s]))
    (xs : List (Sample F)) (st : Filled σ) (h : Inv st.ring []) :
    ∃ st', fillInMemory push st xs = .ok st' ∧ Inv st'.ring (replay xs) ∧
      st'.pushed = st.pushed + (replay xs).length ∧
      st'.duplicates + (replay xs).length = st.duplicates + xs.length := by
  have hsort := stableSortOf_sortRun xs
  have hlen : (sortRun xs).length = xs.length := List.length_mergeSort _
  have hfill := fillSorted_spec hpush hsort.sorted st h (List.forall_mem_nil _)
  rw [List.nil_append, hlen] at hfill
  exact hfill

end Pushes

/-- The merge of a spill can be read, and a fill from it is the fill in memory. -/
theorem drain_eq [LeBytes F] (plan : SpillPlan) (samples : List (Sample F)) :
    ∃ reduced merged, reduce plan F (spillRuns plan samples) = .ok reduced ∧
      reduced.mergeRuns (F := F) reduced.runs (plan.window reduced.runs.length) = .ok merged ∧
      ∀ {σ : Type} (push : σ → Sample F → Except PushError σ) (st : Filled σ),
        drain push reduced merged st = fillInMemory push st samples := by
  obtain ⟨reduced, merged, hreduced, hmerged, hpushed⟩ := delayed_merge plan samples
  exact ⟨reduced, merged, hreduced, hmerged, fun push st => hpushed push st⟩

/-! ## The words of a ring -/

section Words

variable [Scalar F] {r : SampleRing F} {m m' : RingArena F} {zs : List (ℤ × Iso3 F)}

/-- A push that is taken. -/
def pushOne (r : SampleRing F) (m : RingArena F) (s : ℤ × Iso3 F) : Option (RingArena F) :=
  match (r.push s.1 s.2).run RingOp.exec m with
  | some (.ok (), m') => some m'
  | _ => none

/-- The ring is what the samples, pushed one after the other, make of an empty one. -/
structure Fed (r : SampleRing F) (m : RingArena F) (zs : List (ℤ × Iso3 F)) : Prop where
  newest : r.Newest m zs
  words : ∃ m', zs.foldlM (pushOne r) emptyArena = some m' ∧ m r.edge = m' r.edge

theorem Fed.empty (hm : m r.edge = emptyArena r.edge) : Fed r m [] where
  newest := by
    refine .of_empty ?_ ?_
    · rw [hm]
      rfl
    · rw [hm]
      rfl
  words := ⟨emptyArena, rfl, hm⟩

omit [Scalar F] in
/-- An access of a ring does the same wherever the words of the ring are the same. -/
theorem exec_agree {e : EdgeId} (o : RingOp F) (m m' : RingArena F) (ho : RingOp.On e o)
    (hm : m e = m' e) : (o.exec m).1 = (o.exec m').1 ∧ (o.exec m).2 e = (o.exec m').2 e := by
  cases ho
  cases o with
  | loadHead e => exact ⟨congrArg RingMem.head hm, hm⟩
  | loadStamp e i => exact ⟨congrArg (fun x => x.stamps i) hm, hm⟩
  | loadSeq e i => exact ⟨congrArg (fun x => x.seq i) hm, hm⟩
  | loadData e i j => exact ⟨congrArg (fun x => x.data i j) hm, hm⟩
  | _ =>
    refine ⟨rfl, ?_⟩
    simp only [RingOp.exec, RingOp.edge, upd_self] at hm ⊢
    rw [hm]

theorem Fed.push (h : Fed r m zs) {s : ℤ × Iso3 F}
    (hrun : (r.push s.1 s.2).run RingOp.exec m = some (.ok (), m'))
    (hnew : r.Newest m' (zs ++ [s])) : Fed r m' (zs ++ [s]) := by
  obtain ⟨n, hall, hm⟩ := h.words
  refine ⟨hnew, ?_⟩
  rcases Prog.run_agree (R := fun m n => m r.edge = n r.edge)
    (fun o m n ho hmn => exec_agree o m n ho hmn) (push_own s.1 s.2) hm with
    ⟨hnone, -⟩ | ⟨a, m₁, n₁, hm₁, hn₁, hagree⟩
  · cases hnone.symm.trans hrun
  · cases hm₁.symm.trans hrun
    refine ⟨n₁, ?_, hagree⟩
    rw [List.foldlM_append, hall]
    show (pushOne r n s).bind _ = _
    rw [pushOne, hn₁]
    rfl

/-- The samples determine the words of a ring. -/
theorem Fed.unique (h : Fed r m zs) (h' : Fed r m' zs) : m r.edge = m' r.edge := by
  obtain ⟨n, hall, hm⟩ := h.words
  obtain ⟨n', hall', hm'⟩ := h'.words
  cases hall.symm.trans hall'
  rw [hm, hm']

/-- Only the words of its own ring matter. -/
theorem Fed.of_same (h : Fed r m zs) (hsame : m' r.edge = m r.edge) : Fed r m' zs where
  newest := h.newest.of_same hsame
  words := by
    obtain ⟨n, hall, hm⟩ := h.words
    exact ⟨n, hall, hsame.trans hm⟩

end Words

/-! ## The tree of a fill -/

/-- A sample as it is pushed. -/
def posed [Libm F] (s : Sample F) : ℤ × Iso3 F := (s.ns, isoFromCanonical s.pose)

/-- A tree on the arena `a` whose ring of the edge `e` was fed with `zs e`. -/
structure RingsFed [Libm F] (a : Arena F) (zs : EdgeId → List (Sample F)) (t : HeapTree F) :
    Prop where
  arena : t.arena = { a with rings := t.arena.rings }
  fed : ∀ e r, a.handle e = some r → Fed r t.arena.rings ((zs e).map posed)
  rest : ∀ e, a.handle e = none → t.arena.rings e = a.rings e

section Feeds

variable [Libm F] {a : Arena F} {zs : EdgeId → List (Sample F)} {t t' : HeapTree F}
  {r : SampleRing F} {xs : List (Sample F)}

/-- Nothing but the rings matters. -/
theorem RingsFed.of_arena (h : RingsFed a zs t) (ht : t'.arena = t.arena) : RingsFed a zs t' where
  arena := by
    rw [ht]
    exact h.arena
  fed := by
    rw [ht]
    exact h.fed
  rest := by
    rw [ht]
    exact h.rest

/-- The samples determine the arena. -/
theorem RingsFed.unique (h : RingsFed a zs t) (h' : RingsFed a zs t') : t.arena = t'.arena := by
  have hrings : t.arena.rings = t'.arena.rings := by
    funext e
    cases hr : a.handle e with
    | none => rw [h.rest e hr, h'.rest e hr]
    | some r =>
      obtain rfl := Arena.handle_edge hr
      exact (h.fed _ r hr).unique (h'.fed _ r hr)
  rw [h.arena, h'.arena, hrings]

theorem RingsFed.push (h : RingsFed a zs t) (hr : a.handle r.edge = some r) {s : Sample F}
    {rings : RingArena F}
    (hrun : (r.push s.ns (isoFromCanonical s.pose)).run RingOp.exec t.arena.rings =
      some (.ok (), rings))
    (hnew : r.Newest rings ((zs r.edge).map posed ++ [posed s]))
    (hother : ∀ e, e ≠ r.edge → rings e = t.arena.rings e)
    (ht : t'.arena = { t.arena with rings := rings }) :
    RingsFed a (upd zs r.edge (zs r.edge ++ [s])) t' where
  arena := by
    rw [ht, h.arena]
  fed := by
    intro e r' hr'
    have hrings : t'.arena.rings = rings := by rw [ht]
    rw [hrings]
    by_cases he : e = r.edge
    · subst he
      cases hr.symm.trans hr'
      rw [upd_self, List.map_append]
      exact (h.fed _ _ hr).push hrun hnew
    · rw [upd_of_ne _ _ he]
      obtain rfl := Arena.handle_edge hr'
      exact (h.fed _ _ hr').of_same (hother _ he)
  rest := by
    intro e hnone
    have hrings : t'.arena.rings = rings := by rw [ht]
    rw [hrings, hother e ?_, h.rest e hnone]
    rintro rfl
    cases hr.symm.trans hnone

/-- The writer of the edge has pushed `xs`. -/
structure Feeds (a : Arena F) (zs : EdgeId → List (Sample F)) (r : SampleRing F)
    (xs : List (Sample F)) (f : Feed F) : Prop where
  rings : RingsFed a (upd zs r.edge xs) f.tree
  owned : WriterSys.Owned ⟨f.tree, [some f.writer]⟩
  ring : f.writer.ring = r

/-- A sample that no stamp is behind is taken. -/
theorem feedSample_spec (hr : a.handle r.edge = some r) (clock : ℕ → Option ℤ)
    (st : Option (Feed F))
    (xs : List (Sample F)) (s : Sample F) (h : ∃ f, st = some f ∧ Feeds a zs r xs f)
    (hs : ∀ x ∈ xs, x.ns ≤ s.ns) :
    ∃ st', feedSample clock st s = .ok st' ∧ ∃ f, st' = some f ∧ Feeds a zs r (xs ++ [s]) f := by
  obtain ⟨f, rfl, hf⟩ := h
  have hlive : (⟨f.tree, [some f.writer]⟩ : WriterSys F).Live 0 f.writer := rfl
  have hring := hf.ring
  have hfed := hf.rings.fed _ _ hr
  rw [upd_self] at hfed
  have hepoch := hf.owned.epoch 0 f.writer hlive
  have hp := Arena.handle_powerOfTwo hr
  subst hring
  rcases HeapTree.push_spec hepoch hp hfed.newest (clock f.calls) s.ns (isoFromCanonical s.pose)
    with ⟨-, rings, hrun, hpush, hnew, hother⟩ | ⟨last, hlast, hlt, -⟩
  · obtain ⟨w, t, hpush, hw, ht, howned⟩ : ∃ w t,
        f.tree.push f.writer (clock f.calls) s.ns (isoFromCanonical s.pose) = some (.ok w, t) ∧
          w.ring = f.writer.ring ∧ t.arena = { f.tree.arena with rings := rings } ∧
            WriterSys.Owned ⟨t, [some w]⟩ := by
      have hsame := WriterSys.sampleClockOffset_writer f.writer (clock f.calls) s.ns
      refine ⟨_, _, hpush, hsame.1, ?_, hf.owned.push hlive hnew hother hsame _⟩
      rw [HeapTree.record_arena]
    have hupd : upd (upd zs f.writer.ring.edge xs) f.writer.ring.edge (xs ++ [s]) =
        upd zs f.writer.ring.edge (xs ++ [s]) := by
      funext e
      by_cases he : e = f.writer.ring.edge
      · rw [he, upd_self, upd_self]
      · rw [upd_of_ne _ _ he, upd_of_ne _ _ he, upd_of_ne _ _ he]
    have hfed' := hf.rings.push hr (s := s) hrun (by rwa [upd_self]) hother ht
    rw [upd_self, hupd] at hfed'
    refine ⟨some ⟨t, w, f.calls + 1⟩, ?_, _, rfl, hfed', howned, hw⟩
    rw [feedSample, hpush]
  · obtain ⟨x, hx, rfl⟩ := List.mem_map.mp hlast
    exact absurd (hs x hx) (not_le.mpr hlt)

end Feeds

/-! ## The survey and its tree -/

/-- A survey as pass one leaves it. -/
structure Surveyed (opts : IngestOptions) (recs : List (RawRecord F)) (s : Survey F) : Prop where
  frames : s.frames.Ok
  names : s.frames.names = frameNames opts recs
  known : ∀ e ∈ s.edges, ∃ p c, s.frames.names[e.1.1]? = some p ∧
    s.frames.names[e.1.2]? = some c
  edges : s.edges.map (fun e => s.frames.edge e.1) = edgeKeys opts recs
  reports : ∀ e ∈ s.edges, Reports (recordsOf opts recs (s.frames.edge e.1)) e.2
  admissible : AllAdmissible opts recs

theorem surveyed_of_survey [LeBytes F] [Floats F] {crates : Crates} {opts : IngestOptions}
    {file : List UInt8} {s : Survey F} (h : survey crates opts .default file = .ok s) :
    Surveyed opts (transformsOf crates opts file) s := by
  obtain ⟨-, -, -, hfold⟩ := survey_eq_ok h
  rcases foldlM_step opts (transformsOf crates opts file : List (RawRecord F))
    Frames.ok_default with
    ⟨hadm, st, entry, hok, hholds, hentry⟩ | ⟨-, e, herror⟩
  · cases hok.symm.trans hfold
    have hdescribes := hholds.describes hentry
    exact ⟨hholds.frames, hholds.names, hholds.known, hholds.edges, hdescribes.reports, hadm⟩
  · cases herror.symm.trans hfold

section Tree

variable {opts : IngestOptions} {recs : List (RawRecord F)} {s : Survey F} {slot slot' : ℕ}
  {e : EdgeKey × SurveyRow F}

theorem canonicalOrder_perm (s : Survey F) :
    (canonicalOrder s).Perm (List.range s.edges.length) := List.mergeSort_perm _ _

theorem mem_canonicalOrder : slot ∈ canonicalOrder s ↔ slot < s.edges.length := by
  rw [(canonicalOrder_perm s).mem_iff, List.mem_range]

/-- The id of the edge of a slot. -/
def edgeIdOf (s : Survey F) (slot : ℕ) : EdgeId := (canonicalOrder s).idxOf slot + 1

theorem edgeIdOf_inj (h : slot < s.edges.length) (heq : edgeIdOf s slot = edgeIdOf s slot') :
    slot = slot' :=
  List.idxOf_inj (mem_canonicalOrder.mpr h) |>.mp (Nat.succ_injective heq)

variable [Libm F]

theorem builder_edges (s : Survey F) : (builder s).edges =
    (canonicalOrder s).filterMap fun i => s.edges[i]?.map (declOf s) := rfl

/-- The declaration of the edge of a slot. -/
theorem builder_edge (h : s.edges[slot]? = some e) :
    (builder s).edges[(canonicalOrder s).idxOf slot]? = some (declOf s e) := by
  have hmem := mem_canonicalOrder.mpr (List.getElem?_eq_some_iff.mp h).1
  have hall : (builder s).edges.map some =
      (canonicalOrder s).map fun i => s.edges[i]?.map (declOf s) := by
    rw [builder_edges, List.map_filterMap_some_eq_filter_map_isSome, List.filter_eq_self]
    intro x hx
    obtain ⟨i, hi, rfl⟩ := List.mem_map.mp hx
    rw [List.getElem?_eq_getElem (mem_canonicalOrder.mp hi)]
    rfl
  have hat := congrArg (fun xs => xs[(canonicalOrder s).idxOf slot]?) hall
  simp only [List.getElem?_map, List.getElem?_idxOf hmem, Option.map_some, h] at hat
  obtain ⟨d, hd, heq⟩ := Option.map_eq_some_iff.mp hat
  rwa [heq] at hd

/-- The frames of a row are frames of the tree. -/
theorem frame_spec {a : Arena F} {l : SizedLayout} {b : TreeBuilder F} {t : HeapTree F}
    (hwired : b.Wired l b.edges a) {rings : RingArena F} (ht : t.arena = { a with rings := rings })
    {name : String} (hname : name ∈ b.names) (fuel : ℕ) :
    t.frame fuel name = some (.ok (b.idOf name, t)) := by
  obtain ⟨arena, claims, participant⟩ := t
  subst ht
  have hk : (b.names.map asBytes)[b.names.idxOf name]? = some (asBytes name) := by
    rw [List.getElem?_map, List.getElem?_idxOf hname]
    rfl
  unfold HeapTree.frame
  rw [hwired.names.run_known hk]
  dsimp only
  rw [show FrameId.new (b.names.idxOf name + 1) = some (b.idOf name) from
    dif_pos (Nat.succ_pos _)]

omit [Libm F] in
theorem attaches_of_rings {t : HeapTree F} {a : Arena F} {claims : EdgeId → ClaimRecord}
    {participant : Slot} {child parent : FrameId} {r : SampleRing F} {rings : RingArena F}
    (h : (⟨a, claims, participant⟩ : HeapTree F).Attaches child parent r)
    (ht : t.arena = { a with rings := rings }) : t.Attaches child parent r := by
  obtain ⟨arena, claims', participant'⟩ := t
  subst ht
  exact ⟨h.lt, h.parent, h.edge, h.ne_zero, h.handle⟩

omit [Libm F] in
/-- A writer that is gone is no writer. -/
theorem owned_of_gone {t : HeapTree F} (h : WriterSys.Owned ⟨t, [none]⟩) :
    WriterSys.Owned ⟨t, []⟩ := by
  have hnone : ∀ i w, ¬ (⟨t, []⟩ : WriterSys F).Live i w := by
    intro i w hlive
    cases hlive
  have hgone : ∀ i w, ¬ (⟨t, [none]⟩ : WriterSys F).Live i w := by
    intro i w hlive
    cases i with
    | zero => cases hlive
    | succ i => cases hlive
  refine ⟨?_, ?_, ?_, ?_, ?_, fun e _ => h.free e fun i w hlive => absurd hlive (hgone i w),
    h.rings⟩
  · exact fun i w hlive => absurd hlive (hnone i w)
  · exact fun i w hlive => absurd hlive (hnone i w)
  · exact fun i w hlive => absurd hlive (hnone i w)
  · exact fun i w hlive => absurd hlive (hnone i w)
  · exact fun i j w w' hlive => absurd hlive (hnone i w)

/-- A dynamic edge of the survey attaches its child to its parent in the tree. -/
theorem attaches_spec {a : Arena F} {hash : List UInt8 → ℕ} {uuid : Vector UInt8 16} {fuel : ℕ}
    (hapart : Apart hash (builder s).names)
    (hbuild : (builder s).buildWith hash uuid fuel = some (.ok a)) (he : s.edges[slot]? = some e)
    (hdyn : e.2.staticPose = none) {t : HeapTree F} {rings : RingArena F}
    (ht : t.arena = { a with rings := rings }) :
    t.Attaches ((builder s).idOf (s.frames.name e.1.2)) ((builder s).idOf (s.frames.name e.1.1))
      ⟨edgeIdOf s slot, (Capacity.slots (clampU32 e.2.samples)).get⟩ := by
  have hkind : (declOf s e).kind = .dynamic (.ofSlots (clampU32 e.2.samples)) := by
    unfold declOf
    rw [hdyn]
  exact attaches_of_rings ((builder s).attaches_of_build hapart hbuild (builder_edge he) hkind
    t.claims t.participant) ht

/-- The claim of an edge, its pushes and the drop feed the ring of the edge. -/
theorem withWriter_spec {a : Arena F} {hash : List UInt8 → ℕ} {uuid : Vector UInt8 16} {fuel : ℕ}
    (hapart : Apart hash (builder s).names)
    (hbuild : (builder s).buildWith hash uuid fuel = some (.ok a)) (he : s.edges[slot]? = some e)
    (hdyn : e.2.staticPose = none) {st : FillState F} {zs : EdgeId → List (Sample F)}
    (hrings : RingsFed a zs st.tree) (howned : WriterSys.Owned ⟨st.tree, []⟩)
    (hempty : zs (edgeIdOf s slot) = []) {clock : ℕ → Option ℤ} {xs : List (Sample F)}
    {pushes : Filled (Option (Feed F)) → Except IngestError (Filled (Option (Feed F)))}
    (hpushes : ∀ st, pushes st = fillInMemory (feedSample clock) st xs) (fuel' : ℕ) :
    ∃ st', withWriter fuel' s slot pushes st = some (.ok st') ∧
      RingsFed a (upd zs (edgeIdOf s slot) (replay xs)) st'.tree ∧
      WriterSys.Owned ⟨st'.tree, []⟩ ∧ st'.pushed = st.pushed + (replay xs).length ∧
      st'.duplicates + (replay xs).length = st.duplicates + xs.length ∧
      st'.passes = st.passes ∧ st'.peakBufferBytes = st.peakBufferBytes := by
  obtain ⟨l, hwired, -, -⟩ := (builder s).wired_of_build hapart hbuild
  have hmem := TreeBuilder.ends_mem (List.mem_of_getElem? (builder_edge he))
  have hattaches := attaches_spec hapart hbuild he hdyn hrings.arena
  have hparent := frame_spec hwired hrings.arena hmem.1 fuel'
  have hchild := frame_spec hwired hrings.arena hmem.2 fuel'
  rcases howned.claim_cases hattaches with ⟨-, w, t, hclaim, hring, -, howned'⟩ | ⟨hlive, -⟩
  · obtain ⟨-, harena, -, -, -⟩ := HeapTree.claim_starts hclaim
    have hhandle : a.handle (edgeIdOf s slot) =
        some ⟨edgeIdOf s slot, (Capacity.slots (clampU32 e.2.samples)).get⟩ := by
      have hhandle := hattaches.handle
      rw [hrings.arena] at hhandle
      exact hhandle
    have hsame : upd zs (edgeIdOf s slot) [] = zs := by
      funext e'
      by_cases he' : e' = edgeIdOf s slot
      · rw [he', upd_self, hempty]
      · rw [upd_of_ne _ _ he']
    have hstart : Feeds a zs ⟨edgeIdOf s slot, (Capacity.slots (clampU32 e.2.samples)).get⟩ []
        ⟨t, w, st.calls⟩ := by
      refine ⟨?_, howned', hring⟩
      dsimp only
      rw [hsame]
      exact hrings.of_arena harena
    obtain ⟨st', hfill, ⟨f, hf, hfeeds⟩, hpushed, hdup⟩ := fillInMemory_spec
      (feedSample_spec hhandle clock) xs ⟨some ⟨t, w, st.calls⟩, st.pushed, st.duplicates⟩
      ⟨_, rfl, hstart⟩
    obtain ⟨ring, pushed, duplicates⟩ := st'
    subst hf
    refine ⟨{ st with
      tree := f.tree.drop f.writer
      calls := f.calls
      pushed := pushed
      duplicates := duplicates }, ?_, ?_, ?_, hpushed, hdup, rfl, rfl⟩
    · unfold withWriter frameOf
      rw [he]
      dsimp only
      rw [show s.frames.name e.1.1 = (declOf s e).parent from rfl,
        show s.frames.name e.1.2 = (declOf s e).child from rfl, hparent]
      simp only [bind, ExceptT.bind, ExceptT.mk, ExceptT.bindCont, Option.bind_some, hchild]
      rw [show st.tree.claim ((builder s).idOf (declOf s e).child)
        ((builder s).idOf (declOf s e).parent) = some (.ok w, t) from hclaim]
      dsimp only
      rw [hpushes, hfill]
    · exact hfeeds.rings.of_arena rfl
    · exact owned_of_gone (hfeeds.owned.drop (i := 0) (w := f.writer) rfl)
  · obtain ⟨i, w, hlive, -⟩ := hlive
    cases hlive

end Tree

end TfTree.Offline
