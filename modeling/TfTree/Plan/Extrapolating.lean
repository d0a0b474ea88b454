import Mathlib
import TfTree.Conc.Replay
import TfTree.Plan.Span
import TfTree.Ring.Carry
import TfTree.Ring.Extrapolation

/-!
# The distance `at_extrapolating` reports

`Plan::at_extrapolating_tagged` (`tf_tree_core/src/plan.rs`) while every dynamic edge of the
plan is pushed to. The distance is measured against stamps that `newest_common` loads
before the fold: it loads `head` and then the stamp of the index below it, in a slot the
writer may have reused for a sample it has not published yet.

Results:
* `newestCommon_measures`: where no such stamp is loaded, every dynamic edge has published
  a stamp at or after the common one.
* `foldAtPolicy_replays`: up to that stamp no edge is extrapolated: the fold makes the
  accesses of the fold under `ExtrapPolicy::Error` and returns its pose.
* `byNs_zero_sound`: in such a run a distance of `0` is true.
* `byNs_zero_misread`: a run in which it is not.
-/

namespace TfTree

open Conc

variable {F : Type}

/-! ## Rings of a view -/

namespace ArenaView

variable {view : ArenaView} {low : EdgeId → ℕ} {m m' m'' : RingArena F} {edge : EdgeId}
  {interp : ℕ} {ring : SampleRing F}

theorem sampler_edge (h : view.sampler edge = some (interp, ring)) : ring.edge = edge := by
  unfold sampler at h
  cases hr : view.rings edge with
  | none =>
    rw [hr] at h
    cases h
  | some s =>
    rw [hr] at h
    cases h
    rfl

/-- The stamps of every ring are in order. -/
def Stamped (view : ArenaView) (low : EdgeId → ℕ) (m : RingArena F) : Prop :=
  ∀ edge interp (ring : SampleRing F), view.sampler edge = some (interp, ring) →
    ring.Stamped (low edge) m

/-- What the writers may do to a reader. -/
def Restamps (view : ArenaView) (low : EdgeId → ℕ) (m m' : RingArena F) : Prop :=
  ∀ edge interp (ring : SampleRing F), view.sampler edge = some (interp, ring) →
    ring.Restamps (low edge) m m'

theorem Restamps.refl (view : ArenaView) (low : EdgeId → ℕ) (m : RingArena F) :
    view.Restamps low m m := fun _ _ ring _ => .refl ring _ m

theorem Restamps.trans (h : view.Restamps low m m') (h' : view.Restamps low m' m'') :
    view.Restamps low m m'' :=
  fun edge interp ring hr => (h edge interp ring hr).trans (h' edge interp ring hr)

theorem Stamped.restamps (h : view.Stamped low m) (hs : view.Restamps low m m') :
    view.Stamped low m' :=
  fun edge interp ring hr => (hs edge interp ring hr (h edge interp ring hr)).1

end ArenaView

namespace SampleRing

variable {r : SampleRing F} {low : ℕ} {m m' n n' : RingArena F}

theorem Restamps.of_eq (h : m' r.edge = m r.edge) : r.Restamps low m m' := by
  intro hm
  refine ⟨hm.congr ?_, ?_⟩
  · rw [h]
    exact ⟨rfl, rfl, rfl⟩
  · rw [h]

/-- Only the words of the ring matter. -/
theorem Restamps.congr (h : r.Restamps low m m') (hm : n r.edge = m r.edge)
    (hm' : n' r.edge = m' r.edge) : r.Restamps low n n' :=
  ((Restamps.of_eq hm.symm).trans h).trans (.of_eq hm')

end SampleRing

/-! ## The writers -/

section Writers

variable {view : ArenaView} {low : EdgeId → ℕ} {m m' : RingArena F} {edge : EdgeId}

/-- What the thread may assume of a step of the others: a reader sees stamps in order, a
    writer is alone with its ring. -/
def moves (view : ArenaView) (low : EdgeId → ℕ) : Option EdgeId → RingArena F → RingArena F → Prop
  | none => view.Restamps low
  | some edge => fun m m' => m' edge = m edge

theorem RingOp.exec_congr (o : RingOp F) (h : m' o.edge = m o.edge) :
    (o.exec m').1 = (o.exec m).1 ∧ (o.exec m').2 o.edge = (o.exec m).2 o.edge := by
  cases o with
  | loadHead e => exact ⟨congrArg RingMem.head h, h⟩
  | loadStamp e idx => exact ⟨congrArg (RingMem.stamps · idx) h, h⟩
  | loadSeq e idx => exact ⟨congrArg (RingMem.seq · idx) h, h⟩
  | loadData e idx i => exact ⟨congrArg (RingMem.data · idx i) h, h⟩
  | storeSeq e | storeStamp e | storeData e | storeHead e | storeHeartbeat e =>
    replace h : m' e = m e := h
    exact ⟨rfl, by simp [RingOp.exec, RingOp.edge, h]⟩

/-- The steps of the threads keep the stamps in order. -/
theorem moves_pact (view : ArenaView) (low : EdgeId → ℕ) :
    Pool.Pact RingOp.exec (fun (e : Empty) (_ : RingArena F) => e.elim) (fun _ => True)
      (view.Stamped low) (moves view low) where
  refl i m := by
    cases i with
    | none => exact .refl view low m
    | some edge => rfl
  trans i m m' m'' h h' := by
    cases i with
    | none => exact ArenaView.Restamps.trans h h'
    | some edge => exact Eq.trans h' h
  fits _ _ _ := trivial
  env e := e.elim

/-- A writer of one ring keeps its part. -/
theorem writer_wp {α : Type} {interp : ℕ} {ring : SampleRing F}
    (hr : view.sampler edge = some (interp, ring)) {p : RingProg F α} (hp : p.Only (RingOp.On edge))
    {Q : α → RingArena F → Prop} (hm : p.wp RingOp.exec Eq (ring.Restamps (low edge)) Q m)
    (heq : m' edge = m edge) :
    p.wp RingOp.exec (Pool.Rely (fun _ => True) (view.Stamped low) (moves view low) (some edge))
      (Pool.Guar (fun _ => True) (view.Stamped low) (moves view low) (some edge))
      (fun _ _ => True) m' := by
  have hedge := ArenaView.sampler_edge hr
  induction p generalizing m m' with
  | ret a => trivial
  | abort => trivial
  | call o k ih =>
    rintro n ⟨-, hJ, hn⟩
    obtain ⟨hon, hp⟩ := hp
    obtain ⟨hG, hk⟩ := hm m rfl
    have hne : n edge = m edge := Eq.trans hn heq
    obtain ⟨hres, hmem⟩ := RingOp.exec_congr o (show n o.edge = m o.edge by rw [hon]; exact hne)
    rw [hon] at hmem
    -- the others are left alone
    have hother : ∀ e, e ≠ edge → (RingOp.exec o n).2 e = n e := fun e he =>
      RingOp.exec_of_ne o n (by rw [hon]; exact he)
    have hall : view.Restamps low n (RingOp.exec o n).2 := by
      intro e interp' ring' hr'
      have hedge' := ArenaView.sampler_edge hr'
      by_cases he : e = edge
      · subst he
        obtain ⟨-, rfl⟩ := Prod.mk.inj (Option.some_inj.mp (hr.symm.trans hr'))
        exact hG.congr (by rw [hedge]; exact hne) (by rw [hedge]; exact hmem)
      · exact .of_eq (by rw [hedge']; exact hother e he)
    refine ⟨fun _ => ⟨hJ.restamps hall, fun j hj => ?_⟩, ?_⟩
    · cases j with
      | none => exact hall
      | some e => exact hother e fun he => hj (by rw [he])
    · rw [hres]
      exact ih _ (hp _) hk hmem

/-- A reader keeps its part. -/
theorem reader_wp {α : Type} {p : RingProg F α} {P : α → Prop} (hp : p.Through RingOp.IsLoad P) :
    p.wp RingOp.exec (Pool.Rely (fun _ => True) (view.Stamped low) (moves view low) none)
      (Pool.Guar (fun _ => True) (view.Stamped low) (moves view low) none) (fun _ _ => True) m := by
  induction p generalizing m with
  | ret a => trivial
  | abort => trivial
  | call o k ih =>
    rintro n ⟨-, hJ, -⟩
    have hsame := RingOp.exec_of_isLoad hp.1 n
    refine ⟨fun _ => ⟨by rwa [hsame], fun j hj => ?_⟩, ih _ (hp.2 _)⟩
    rw [hsame]
    exact (moves_pact view low).refl j n

theorem pushAll_own {r : SampleRing F} (samples : List (ℤ × Iso3 F)) :
    (r.pushAll samples).Only (RingOp.On r.edge) := by
  induction samples with
  | nil => trivial
  | cons s ss ih => exact (push_own s.1 s.2).bind fun _ => ih

end Writers

/-! ## Stamps an edge has reached -/

/-- The edge has published a stamp at or after `t`. -/
def Reaches (t : ℤ) (edge : EdgeId) (m : RingArena F) : Prop := ∃ a ∈ (m edge).published, t ≤ a.1

/-- The stamps are in order, and the dynamic edges of the steps have reached `t`. -/
structure Ahead (view : ArenaView) (low : EdgeId → ℕ) (steps : List (Step (Iso3 F))) (t : ℤ)
    (m : RingArena F) : Prop where
  stamped : view.Stamped low m
  known : ∀ edge inverted, .dyn edge inverted ∈ steps → (view.rings edge).isSome
  reaches : ∀ edge inverted, .dyn edge inverted ∈ steps → Reaches t edge m

section Reach

variable {view : ArenaView} {low : EdgeId → ℕ} {m m' : RingArena F} {edge : EdgeId} {t : ℤ}
  {interp : ℕ} {ring : SampleRing F} {steps : List (Step (Iso3 F))} {inverted : Bool}

theorem ArenaView.sampler_isSome :
    (view.sampler edge : Option (ℕ × SampleRing F)).isSome = (view.rings edge).isSome :=
  Option.isSome_map

/-- Published samples stay. -/
theorem Reaches.restamps (h : Reaches t edge m) (hm : view.Stamped low m)
    (hs : view.Restamps low m m') (hr : (view.rings edge).isSome) : Reaches t edge m' := by
  rw [← ArenaView.sampler_isSome (F := F)] at hr
  obtain ⟨⟨interp, ring⟩, hr⟩ := Option.isSome_iff_exists.mp hr
  obtain ⟨-, hpub⟩ := hs edge interp ring hr (hm edge interp ring hr)
  rw [ArenaView.sampler_edge hr] at hpub
  obtain ⟨a, ha, hle⟩ := h
  exact ⟨a, hpub.subset ha, hle⟩

theorem Ahead.restamps (h : Ahead view low steps t m) (hs : view.Restamps low m m') :
    Ahead view low steps t m' where
  stamped := h.stamped.restamps hs
  known := h.known
  reaches := fun edge inverted hmem =>
    (h.reaches edge inverted hmem).restamps h.stamped hs (h.known edge inverted hmem)

/-- The stamp of the newest index that was loaded from `head` is not before `t`, however far
    the writer has got meanwhile. -/
theorem Ahead.newest (h : Ahead view low steps t m) (hmem : .dyn edge inverted ∈ steps)
    (hr : view.sampler edge = some (interp, ring)) (hs : view.Restamps low m m') :
    t ≤ ring.stampOf m' ((m ring.edge).head - 1) := by
  have hst := h.stamped edge interp ring hr
  have hedge := ArenaView.sampler_edge hr
  obtain ⟨a, ha, hle⟩ := h.reaches edge inverted hmem
  rw [← hedge] at ha
  obtain ⟨hst', hpub⟩ := hs edge interp ring hr hst
  -- the sample of that index is the newest one that was published then
  have hhead := hst.head
  have hpos := List.length_pos_of_mem ha
  have hlt : (m ring.edge).head - 1 < (m ring.edge).published.length := by omega
  have hget' := List.prefix_iff_getElem?.mp hpub _ hlt
  have hnew := hst'.later _ _ hget' hst.low_le
  obtain ⟨j, hj, rfl⟩ := List.getElem_of_mem ha
  have hsorted :
    (m ring.edge).published[j].1 ≤ (m ring.edge).published[(m ring.edge).head - 1].1 := by
    rcases Nat.lt_or_ge j ((m ring.edge).head - 1) with hlt' | hge
    · exact List.pairwise_iff_getElem.mp hst.sorted j _ hj hlt hlt'
    · have hj' : j = (m ring.edge).head - 1 := by omega
      simp only [hj', le_refl]
  exact (hle.trans hsorted).trans hnew

end Reach

/-! ## The fold replays the fold under `Error` -/

section Fold

variable [Kernels F] {view : ArenaView} {low : EdgeId → ℕ} {m : RingArena F} {edge : EdgeId}
  {t : ℤ} {interp : ℕ} {ring : SampleRing F} {steps : List (Step (Iso3 F))} {inverted : Bool}
  {policy : ExtrapPolicy}

/-- The programs make the same accesses while writers push, and stay ahead of `t`. -/
abbrev SameReads {α : Type} (view : ArenaView) (low : EdgeId → ℕ) (steps : List (Step (Iso3 F)))
    (t : ℤ) (p p' : RingProg F α) : Prop :=
  ∀ m, Ahead view low steps t m → p.Replays RingOp.exec (view.Restamps low) p'
    (fun _ m' => Ahead view low steps t m') m

omit [Kernels F] in
theorem SameReads.refl {α : Type} {p : RingProg F α} {P : α → Prop}
    (hp : p.Through RingOp.IsLoad P) : SameReads view low steps t p p := by
  intro m hm
  have hself := Prog.Replays.of_through (R := view.Restamps low)
    (fun o m ho => RingOp.exec_of_isLoad ho m) (fun _ _ h hs => Ahead.restamps h hs) hp hm
  exact hself.mono fun _ _ h => h.2

omit [Kernels F] in
theorem SameReads.bind {α β : Type} {p p' : RingProg F α} {f f' : α → RingProg F β}
    (hp : SameReads view low steps t p p')
    (hf : ∀ a, SameReads view low steps t (f a) (f' a)) :
    SameReads view low steps t (p >>= f) (p' >>= f') :=
  fun m hm => Prog.Replays.bind ((hp m hm).mono fun a m' hm' => hf a m' hm')

omit [Kernels F] in
theorem SameReads.map {α β : Type} {p p' : RingProg F α} (hp : SameReads view low steps t p p')
    (f : α → β) : SameReads view low steps t (p >>= fun a => pure (f a))
      (p' >>= fun a => pure (f a)) := by
  refine hp.bind fun a => .refl (P := fun _ => True) ?_
  trivial

/-- A reader that is ahead of `t` does not come to extrapolate. -/
theorem readWith_replays {B : Type} {exact' : Iso3 F → B} {between : Iso3 F → Iso3 F → F → B}
    {seek : ℕ → ℕ → RingProg F ℕ} (hmem : .dyn edge inverted ∈ steps)
    (hr : view.sampler edge = some (interp, ring))
    (hseek : ∀ lo hi, (seek lo hi).Through RingOp.IsLoad fun _ => True) (cursor : ℕ) :
    SameReads view low steps t (ring.readWith exact' between seek t policy cursor)
      (ring.readWith exact' between seek t .error cursor) := by
  intro m hm
  unfold SampleRing.readWith
  refine Prog.Replays.bind (Prog.Replays.op fun m1 h1 => ?_)
  have hm1 : Ahead view low steps t m1 := hm.restamps h1
  have hnew : ∀ m', view.Restamps low m1 m' → t ≤ ring.stampOf m' ((m1 ring.edge).head - 1) :=
    fun m' hs => hm1.newest hmem hr hs
  change Prog.Replays _ _ (if (m1 ring.edge).head = 0 then _ else _)
    (if (m1 ring.edge).head = 0 then _ else _) _ m1
  split_ifs
  · exact ⟨rfl, hm1⟩
  refine Prog.Replays.bind (Prog.Replays.op fun m2 h2 => ?_)
  refine Prog.Replays.bind (Prog.Replays.op fun m3 h3 => ?_)
  have hle := hnew m3 (h2.trans h3)
  have hm3 : Ahead view low steps t m3 := (hm1.restamps h2).restamps h3
  change Prog.Replays _ _ (if t < ring.stampOf m2 _ then _ else
    if t > ring.stampOf m3 ((m1 ring.edge).head - 1) then _ else _) (if t < ring.stampOf m2 _
    then _ else if t > ring.stampOf m3 ((m1 ring.edge).head - 1) then _ else _) _ m3
  rw [if_neg (not_lt.mpr hle), if_neg (not_lt.mpr hle)]
  refine SameReads.refl (P := fun _ => True) ?_ m3 hm3
  split_ifs
  · trivial
  · exact (held_through _).bind fun out _ => trivial
  · refine (hseek _ _).bind fun i _ => ?_
    exact (readBracket_through i t).bind fun out _ => trivial

/-- The same through the guard. -/
theorem sampleHinted_replays (hmem : .dyn edge inverted ∈ steps) (cursors : Cursors) (k : ℕ) :
    SameReads view low steps t (view.sampleHinted cursors k edge t policy :
        RingProg F (Except LookupError (Iso3 F) × Cursors))
      (view.sampleHinted cursors k edge t .error) := by
  cases hr : (view.sampler edge : Option (ℕ × SampleRing F)) with
  | none =>
    have hsame : (view.sampleHinted cursors k edge t policy :
        RingProg F (Except LookupError (Iso3 F) × Cursors)) =
        view.sampleHinted cursors k edge t .error := by
      simp only [ArenaView.sampleHinted, ArenaView.sampleFrom, ArenaView.sample, hr]
    rw [hsame]
    exact .refl (view.sampleHinted_through cursors k edge t .error)
  | some s =>
    obtain ⟨interp, ring⟩ := s
    simp only [ArenaView.sampleHinted, ArenaView.sampleFrom, ArenaView.sample, hr]
    unfold SampleRing.sample
    have hfrom : ∀ cursor, SameReads view low steps t
        (ring.sampleFrom (InterpPolicy.fromU8 interp).eval t policy cursor)
        (ring.sampleFrom (InterpPolicy.fromU8 interp).eval t .error cursor) := fun cursor =>
      readWith_replays hmem hr
        (fun lo hi => (bracketFrom_through lo hi t cursor).mono fun _ _ => trivial) cursor
    split_ifs
    · refine (hfrom _).bind fun out => .refl (P := fun _ => True) ?_
      rcases out with ⟨_ | _, _⟩ <;> trivial
    · refine (hfrom _).bind fun out => .refl (P := fun _ => True) ?_
      rcases out with ⟨_ | _, _⟩ <;> trivial
    · have hread : SameReads view low steps t
          (ring.readWith id (InterpPolicy.fromU8 interp).eval (ring.bracket · · t) t policy 0)
          (ring.readWith id (InterpPolicy.fromU8 interp).eval (ring.bracket · · t) t .error 0) :=
        readWith_replays hmem hr (fun lo hi => (bracket_through lo hi t).mono fun _ _ => trivial) 0
      exact (hread.map Prod.fst).map (·, cursors)

/-- The loop of the fold. -/
theorem foldSteps_replays (rest : List (Step (Iso3 F))) (hsub : rest ⊆ steps) (k : ℕ)
    (acc : Iso3 F) (cursors : Cursors) :
    SameReads view low steps t
      (foldSteps (· * ·) composeDyn (fun k edge cs => view.sampleHinted cs k edge t policy)
        k rest acc cursors)
      (foldSteps (· * ·) composeDyn (fun k edge cs => view.sampleHinted cs k edge t .error)
        k rest acc cursors) := by
  induction rest generalizing k acc cursors with
  | nil => exact .refl (P := fun _ => True) trivial
  | cons s rest ih =>
    obtain ⟨hs, htail⟩ := List.cons_subset.mp hsub
    cases s with
    | static p => exact ih htail (k + 1) (acc * p) cursors
    | dyn edge inverted =>
      refine SameReads.bind (sampleHinted_replays hs cursors k) fun out => ?_
      obtain ⟨out, cs⟩ := out
      cases out with
      | error e => exact .refl (P := fun _ => True) trivial
      | ok p => exact ih htail (k + 1) _ cs

end Fold

/-! ## What `newest_common` measures -/

/-- The load of a stamp finds one that its ring has published. -/
def RingOp.Published : RingOp F → RingArena F → Prop
  | .loadStamp e idx, m => ∃ a ∈ (m e).published, a.1 = (m e).stamps idx
  | _, _ => True

/-- The stamps are in order, and the dynamic edges of the steps have reached the stamp that
    is common to them. -/
structure Measured (view : ArenaView) (low : EdgeId → ℕ) (steps : List (Step (Iso3 F)))
    (acc : Option (ℤ × EdgeId)) (m : RingArena F) : Prop where
  stamped : view.Stamped low m
  known : ∀ edge inverted, .dyn edge inverted ∈ steps → (view.rings edge).isSome
  reaches : ∀ edge inverted, .dyn edge inverted ∈ steps → ∃ c ∈ acc, Reaches c.1 edge m

section Measure

variable {view : ArenaView} {low : EdgeId → ℕ} {m m' : RingArena F} {edge : EdgeId} {t : ℤ}
  {steps : List (Step (Iso3 F))} {acc : Option (ℤ × EdgeId)}

theorem Reaches.anti {t' : ℤ} (h : Reaches t edge m) (ht : t' ≤ t) : Reaches t' edge m := by
  obtain ⟨a, ha, hle⟩ := h
  exact ⟨a, ha, ht.trans hle⟩

theorem Measured.restamps (h : Measured view low steps acc m) (hs : view.Restamps low m m') :
    Measured view low steps acc m' where
  stamped := h.stamped.restamps hs
  known := h.known
  reaches := fun edge inverted hmem => by
    obtain ⟨c, hc, hreach⟩ := h.reaches edge inverted hmem
    exact ⟨c, hc, hreach.restamps h.stamped hs (h.known edge inverted hmem)⟩

/-- Up to the common stamp, no edge lags behind. -/
theorem Measured.ahead (h : Measured view low steps acc m) (ht : ∀ c ∈ acc, t ≤ c.1) :
    Ahead view low steps t m where
  stamped := h.stamped
  known := h.known
  reaches := fun edge inverted hmem => by
    obtain ⟨c, hc, hreach⟩ := h.reaches edge inverted hmem
    exact hreach.anti (ht c hc)

/-- The common stamp after one more edge is that of the edge, or an earlier one. -/
theorem exists_closer (edge : EdgeId) (newest : ℤ) (acc : Option (ℤ × EdgeId)) :
    ∃ c ∈ closer edge newest acc, c.1 ≤ newest ∧ ∀ c' ∈ acc, c.1 ≤ c'.1 := by
  cases acc with
  | none => exact ⟨(newest, edge), rfl, le_refl newest, fun c' hc' => by cases hc'⟩
  | some c =>
    simp only [closer]
    split_ifs with hlt
    · refine ⟨(newest, edge), rfl, le_refl newest, fun c' hc' => ?_⟩
      cases hc'
      exact hlt.le
    · refine ⟨c, rfl, not_lt.mp hlt, fun c' hc' => ?_⟩
      cases hc'
      exact le_refl c.1

theorem Measured.closer {inverted : Bool} {newest : ℤ} (h : Measured view low steps acc m)
    (hring : (view.rings edge).isSome) (hnew : Reaches newest edge m) :
    Measured view low (steps ++ [.dyn edge inverted]) (closer edge newest acc) m where
  stamped := h.stamped
  known := fun edge' inverted' hmem => by
    rcases List.mem_append.mp hmem with hmem | hmem
    · exact h.known edge' inverted' hmem
    · cases List.mem_singleton.mp hmem
      exact hring
  reaches := fun edge' inverted' hmem => by
    obtain ⟨c, hc, hle, hacc⟩ := exists_closer edge newest acc
    refine ⟨c, hc, ?_⟩
    rcases List.mem_append.mp hmem with hmem | hmem
    · obtain ⟨c', hc', hreach⟩ := h.reaches edge' inverted' hmem
      exact hreach.anti (hacc c' hc')
    · cases List.mem_singleton.mp hmem
      exact hnew.anti hle

theorem Measured.static {p : Iso3 F} (h : Measured view low steps acc m) :
    Measured view low (steps ++ [.static p]) acc m where
  stamped := h.stamped
  known := fun edge inverted hmem => by
    rcases List.mem_append.mp hmem with hmem | hmem
    · exact h.known edge inverted hmem
    · cases List.mem_singleton.mp hmem
  reaches := fun edge inverted hmem => by
    rcases List.mem_append.mp hmem with hmem | hmem
    · exact h.reaches edge inverted hmem
    · cases List.mem_singleton.mp hmem

/-- The loop, when the stamps it loads are published. -/
theorem newestCommonLoop_measures (rest : List (Step (Iso3 F)))
    (h : Measured view low steps acc m) :
    (newestCommonLoop view rest acc).wpIf RingOp.exec (view.Restamps low) RingOp.Published
      (fun common m => ∀ acc', common = .ok acc' → Measured view low (steps ++ rest) acc' m) m := by
  induction rest generalizing steps acc m with
  | nil =>
    rintro acc' hacc
    cases hacc
    rwa [List.append_nil]
  | cons s rest ih =>
    cases s with
    | static p =>
      rw [List.append_cons]
      exact ih h.static
    | dyn edge inverted =>
      rw [List.append_cons]
      unfold newestCommonLoop ArenaView.newestStamp
      cases hr : (view.sampler edge : Option (ℕ × SampleRing F)) with
      | none =>
        rintro acc' hacc
        cases hacc
      | some s =>
        obtain ⟨interp, ring⟩ := s
        have hedge := ArenaView.sampler_edge hr
        have hring : (view.rings edge).isSome := by
          rw [← ArenaView.sampler_isSome (F := F), hr]
          rfl
        rintro m₁ hs₁ -
        change Prog.wpIf _ _ _ (((if (m₁ ring.edge).head = 0 then _ else _) >>= _) >>= _) _ _
        split_ifs
        · rintro acc' hacc
          cases hacc
        · rintro m₂ hs₂ ⟨a, ha, hstamp⟩
          refine ih (((h.restamps hs₁).restamps hs₂).closer hring ⟨a, ?_, hstamp.ge⟩)
          rwa [← hedge]

end Measure

/-! ## The call and the pushes -/

section Call

variable [Kernels F] {plan : Plan (Iso3 F)} {g : Guard} {low : EdgeId → ℕ} {m : RingArena F}
  {t : ℤ} {domain : ℕ} {policy : ExtrapPolicy} {cursors : Cursors}
  {samples : EdgeId → List (ℤ × Iso3 F)} {common : Except LookupError (Option (ℤ × EdgeId))}

/-- What a thread returns: the result of the call, or `none` for a writer. -/
abbrev Outcome (F : Type) := Option (Except LookupError (Extrapolated F) × Cursors)

/-- The part of the call after `newest_common`, whose result is `common`. -/
def Plan.afterCommon (plan : Plan (Iso3 F)) (g : Guard) (t : ℤ) (policy : ExtrapPolicy)
    (cursors : Cursors) (common : Except LookupError (Option (ℤ × EdgeId))) :
    RingProg F (Outcome F) :=
  plan.extrapolateFrom g t policy cursors common >>= fun out => pure (some out)

/-- The call, and a writer for each ring that pushes `samples`. -/
def Plan.extrapolating (plan : Plan (Iso3 F)) (g : Guard) (t : ℤ) (domain : ℕ)
    (policy : ExtrapPolicy) (cursors : Cursors) (samples : EdgeId → List (ℤ × Iso3 F))
    (m : RingArena F) : Pool (Option EdgeId) (RingOp F) RingOp.Res (Outcome F) (RingArena F) where
  mem := m
  prog
    | none => plan.atExtrapolatingTagged g t domain policy cursors >>= fun out => pure (some out)
    | some edge =>
      match (g.view.sampler edge : Option (ℕ × SampleRing F)) with
      | some (_, ring) => ring.pushAll (samples edge) >>= fun _ => pure none
      | none => pure none

/-- The steps of the threads; there are no other events. -/
abbrev ringStep :
    Pool (Option EdgeId) (RingOp F) RingOp.Res (Outcome F) (RingArena F) →
      PoolEvent (Option EdgeId) Empty →
      Option (Pool (Option EdgeId) (RingOp F) RingOp.Res (Outcome F) (RingArena F)) :=
  Pool.step RingOp.exec fun e _ => e.elim

/-- The call fails, or it reports a distance. -/
def Reports : Outcome F → Prop
  | some (.ok ex, _) => ex.byNs ≠ 0
  | _ => True

theorem saturatingSub_pos {a b : ℤ} (h : b < a) : 0 < saturatingSub a b := by
  unfold saturatingSub
  omega

/-- Past the common stamp a distance is reported. -/
theorem afterCommon_reports (h : ∀ acc, common = .ok acc → ∃ c ∈ acc, c.1 < t) :
    (plan.afterCommon g t policy cursors common).Through (fun _ => True) Reports := by
  refine ((Prog.through_trivial _).bind fun out _ => ?_).bind fun out hout => hout
  obtain ⟨out, cs⟩ := out
  cases out with
  | error e => trivial
  | ok pose =>
    cases common with
    | error e => trivial
    | ok acc =>
      obtain ⟨c, hc, hlt⟩ := h acc rfl
      cases hc
      have hpos := saturatingSub_pos hlt
      show max (saturatingSub t c.1) 0 ≠ 0
      omega

/-- Where all edges have reached `t`, the rest of the call replays the one under `Error`. -/
theorem foldAtPolicy_replays : SameReads g.view low plan.steps t
    (plan.afterCommon g t policy cursors common) (plan.afterCommon g t .error cursors common) := by
  refine SameReads.map (SameReads.bind (foldSteps_replays plan.steps (List.Subset.refl _) 0 1
    cursors) fun out => .refl (P := fun _ => True) ?_) some
  obtain ⟨out, cs⟩ := out
  cases out with
  | error e => trivial
  | ok pose =>
    cases common with
    | error e => trivial
    | ok c => cases c <;> trivial

/-- What is decided when `newest_common` returns. -/
theorem newestCommon_measures (hm : g.view.Stamped low m) :
    (plan.newestCommon g).wpIf RingOp.exec (g.view.Restamps low) RingOp.Published (fun common m =>
      (plan.afterCommon g t policy cursors common).Through (fun _ => True) Reports ∨
        Ahead g.view low plan.steps t m ∧ (plan.afterCommon g t policy cursors common).Replays
          RingOp.exec (g.view.Restamps low) (plan.afterCommon g t .error cursors common)
          (fun _ _ => True) m) m := by
  have hstart : Measured g.view low [] none m :=
    ⟨hm, fun _ _ hmem => (List.not_mem_nil hmem).elim, fun _ _ hmem =>
      (List.not_mem_nil hmem).elim⟩
  refine Prog.wpIf_mono (fun common m' hmeas => ?_) (newestCommonLoop_measures plan.steps hstart)
  by_cases hlate : ∀ acc, common = .ok acc → ∃ c ∈ acc, c.1 < t
  · exact .inl (afterCommon_reports hlate)
  · push Not at hlate
    obtain ⟨acc, hacc, hle⟩ := hlate
    have hahead := (hmeas acc hacc).ahead hle
    exact .inr ⟨hahead, (foldAtPolicy_replays m' hahead).mono fun _ _ _ => trivial⟩

omit [Kernels F] in
theorem newestCommonLoop_through (view : ArenaView) (steps : List (Step (Iso3 F)))
    (acc : Option (ℤ × EdgeId)) :
    (newestCommonLoop view steps acc).Through RingOp.IsLoad fun _ => True := by
  induction steps generalizing acc with
  | nil => trivial
  | cons s steps ih =>
    cases s with
    | static p => exact ih acc
    | dyn edge inverted =>
      have hnewest : (view.newestStamp edge : RingProg F _).Through RingOp.IsLoad
          fun _ => True := by
        unfold ArenaView.newestStamp
        split
        · trivial
        · refine Prog.Through.bind (P := fun _ => True) ?_ fun newest _ => ?_
          · refine (Prog.Through.op trivial).bind fun h _ => ?_
            split_ifs
            · trivial
            · exact (Prog.Through.op trivial).bind fun stamp _ => trivial
          · cases newest <;> trivial
      refine hnewest.bind fun newest _ => ?_
      cases newest with
      | error e => trivial
      | ok newest => exact ih _

theorem atExtrapolatingTagged_through :
    (plan.atExtrapolatingTagged g t domain policy cursors).Through RingOp.IsLoad
      fun _ => True := by
  unfold Plan.atExtrapolatingTagged
  cases plan.check g domain with
  | error e => trivial
  | ok u =>
    refine (newestCommonLoop_through g.view plan.steps none).bind fun common _ => ?_
    refine (foldSteps_through (fun k edge c => g.view.sampleHinted_through c k edge t policy)
      0 _ _ _).bind fun out _ => ?_
    obtain ⟨out, cs⟩ := out
    cases out with
    | error e => trivial
    | ok pose =>
      cases common with
      | error e => trivial
      | ok acc => cases acc <;> trivial

/-- The threads keep their parts. -/
theorem extrapolating_sound (hm : g.view.Stamped low m) :
    Pool.Sound RingOp.exec (fun _ => True) (g.view.Stamped low) (moves g.view low)
      (fun _ _ _ => True) (plan.extrapolating g t domain policy cursors samples m) := by
  intro _
  refine ⟨hm, fun i => ?_⟩
  cases i with
  | none =>
    refine reader_wp (P := fun _ => True) ?_
    exact atExtrapolatingTagged_through.bind fun out _ => trivial
  | some edge =>
    show Prog.wp _ _ _ (match (g.view.sampler edge : Option (ℕ × SampleRing F)) with
      | some (_, ring) => _ | none => _) _ _
    cases hr : (g.view.sampler edge : Option (ℕ × SampleRing F)) with
    | none => trivial
    | some s =>
      obtain ⟨interp, ring⟩ := s
      have hedge := ArenaView.sampler_edge hr
      subst hedge
      refine writer_wp (α := Outcome F) hr ((pushAll_own _).bind fun _ => trivial)
        (Q := fun _ _ => True) (m := m) ?_ rfl
      refine Prog.wp_seq (Prog.wp_mono (fun _ _ _ => trivial)
        (pushAll_stamped _ (hm _ interp ring hr)))

/-- No dynamic edge was extrapolated in the run: every one had published a stamp at or after
    `t` before the fold, and the run is one of the call under `ExtrapPolicy::Error` as well. -/
structure Plan.Interpolates (plan : Plan (Iso3 F)) (g : Guard) (t : ℤ) (domain : ℕ)
    (policy : ExtrapPolicy) (cursors : Cursors) (samples : EdgeId → List (ℤ × Iso3 F))
    (m : RingArena F) (es : List (PoolEvent (Option EdgeId) Empty))
    (s : Pool (Option EdgeId) (RingOp F) RingOp.Res (Outcome F) (RingArena F)) : Prop where
  reached : ∃ es₁ es₂ s₁ common, es = es₁ ++ es₂ ∧
    Walk ringStep anyStep (plan.extrapolating g t domain policy cursors samples m) es₁ s₁ ∧
    Walk ringStep anyStep s₁ es₂ s ∧
    s₁.prog none = plan.afterCommon g t policy cursors common ∧
    ∀ edge inverted, .dyn edge inverted ∈ plan.steps → Reaches t edge s₁.mem
  replayed : Walk ringStep anyStep (plan.extrapolating g t domain .error cursors samples m) es s

/-- **Main theorem.** In a run in which `newest_common` loads published stamps only, a
    distance of `0` is true. -/
theorem byNs_zero_sound (hm : ∀ edge interp (ring : SampleRing F),
      g.view.sampler edge = some (interp, ring) → ring.Stamped ((m edge).head - 1) m)
    {es : List (PoolEvent (Option EdgeId) Empty)}
    {s : Pool (Option EdgeId) (RingOp F) RingOp.Res (Outcome F) (RingArena F)}
    (hrun : Walk ringStep (Pool.Watched none (plan.afterCommon g t policy cursors)
      RingOp.Published) (plan.extrapolating g t domain policy cursors samples m) es s)
    {ex : Extrapolated F} {cs : Cursors} (hret : s.prog none = .ret (some (.ok ex, cs)))
    (h0 : ex.byNs = 0) : plan.Interpolates g t domain policy cursors samples m es s := by
  have hst : g.view.Stamped (fun edge => (m edge).head - 1) m := hm
  have hsound : Pool.Sound RingOp.exec (fun _ => True) _ _ (fun _ _ _ => True)
      (plan.extrapolating g t domain policy cursors samples m) := extrapolating_sound hst
  have hlate : ¬ Reports (some (.ok ex, cs) : Outcome F) := fun h => h h0
  cases hcheck : plan.check g domain with
  | error e =>
    -- the call fails at once
    have hfail : (plan.extrapolating g t domain policy cursors samples m).prog none =
        .ret (some (.error e, cursors)) := by
      show (plan.atExtrapolatingTagged g t domain policy cursors >>= _) = _
      rw [Plan.atExtrapolatingTagged, hcheck]
      rfl
    refine (hlate (Pool.late_of_walk hrun ?_ hret)).elim
    rw [hfail]
    trivial
  | ok u =>
    have hprog : ∀ policy', (plan.extrapolating g t domain policy' cursors samples m).prog none =
        plan.newestCommon g >>= plan.afterCommon g t policy' cursors := by
      intro policy'
      show (plan.atExtrapolatingTagged g t domain policy' cursors >>= _) = _
      rw [Plan.atExtrapolatingTagged, hcheck]
      exact bind_assoc _ _ _
    have hbut : Pool.SameBut none (plan.extrapolating g t domain policy cursors samples m)
        (plan.extrapolating g t domain .error cursors samples m) := by
      refine ⟨rfl, fun i hi => ?_⟩
      cases i with
      | none => exact (hi rfl).elim
      | some edge => rfl
    have hstays : ∀ (_ : Except LookupError (Option (ℤ × EdgeId))) m₁ m₂,
        Ahead g.view (fun edge => (m edge).head - 1) plan.steps t m₁ →
          moves g.view (fun edge => (m edge).head - 1) none m₁ m₂ →
          Ahead g.view (fun edge => (m edge).head - 1) plan.steps t m₂ :=
      fun _ _ _ h hs => h.restamps hs
    obtain ⟨⟨es₁, es₂, s₁, common, hes, hw₁, hw₂, hmid, hahead⟩, hreplay⟩ :=
      Pool.Walk.replay (moves_pact g.view _) (fun _ _ _ _ h _ => h) (fun _ => trivial) hstays hrun
        hsound hbut (hprog policy) (hprog .error) (newestCommon_measures hst) hret hlate
    exact ⟨⟨es₁, es₂, s₁, common, hes, hw₁.mono fun _ _ _ => trivial,
      hw₂.mono fun _ _ _ => trivial, hmid, hahead.reaches⟩, hreplay⟩

end Call

/-! ## Two runs -/

/-- What the writer pushes while the call runs. -/
def lapSamples (_ : EdgeId) : List (ℤ × Iso3 ℚ) :=
  [(30, ⟨⟨1, 0, 0, 0⟩, ⟨8, 0, 0⟩⟩), (40, ⟨⟨1, 0, 0, 0⟩, ⟨9, 0, 0⟩⟩),
    (50, ⟨⟨1, 0, 0, 0⟩, ⟨10, 0, 0⟩⟩), (1000, ⟨⟨1, 0, 0, 0⟩, ⟨11, 0, 0⟩⟩)]

/-- A query for the stamp `t` of the ring of four slots with the samples `10` and `20`. -/
def lapCall (t : ℤ) (policy : ExtrapPolicy) :
    Pool (Option EdgeId) (RingOp ℚ) RingOp.Res (Outcome ℚ) (RingArena ℚ) :=
  linePlan.extrapolating lineGuard t 0 policy (fun _ => 0) lapSamples lineArena

/-- The turn is not the load of a stamp that is not published. -/
def loadsPublished (s : Pool (Option EdgeId) (RingOp ℚ) RingOp.Res (Outcome ℚ) (RingArena ℚ)) :
    PoolEvent (Option EdgeId) Empty → Bool
  | .turn none =>
    match s.prog none with
    | .call (.loadStamp e idx) _ => (s.mem e).published.any fun a => a.1 = (s.mem e).stamps idx
    | _ => true
  | _ => true

theorem watched_of_loadsPublished
    {s : Pool (Option EdgeId) (RingOp ℚ) RingOp.Res (Outcome ℚ) (RingArena ℚ)}
    {e : PoolEvent (Option EdgeId) Empty} (h : loadsPublished s e = true) {β : Type}
    (f : β → RingProg ℚ (Outcome ℚ)) : Pool.Watched none f RingOp.Published s e := by
  rintro rfl o k hprog
  cases o with
  | loadStamp e idx =>
    have hcall : s.prog none = .call (.loadStamp e idx) fun res => k res >>= f := hprog
    simp only [loadsPublished, hcall] at h
    obtain ⟨a, ha, hstamp⟩ := List.any_eq_true.mp h
    exact ⟨a, ha, of_decide_eq_true hstamp⟩
  | _ => trivial

/-- The fold of the call has loaded `head` when the next sample is pushed. -/
def earlyEvents : List (PoolEvent (Option EdgeId) Empty) :=
  List.replicate 3 (.turn none) ++ List.replicate 15 (.turn (some 0)) ++
    List.replicate 12 (.turn none)

theorem byNs_zero_sound_early : ∃ s ex cs,
    linePlan.Interpolates lineGuard 20 0 .hold (fun _ => 0) lapSamples lineArena earlyEvents s ∧
    s.prog none = .ret (some (.ok ex, cs)) ∧ ex.byNs = 0 := by
  have hw : ((⟨0, 4⟩ : SampleRing ℚ).pushAll linePoses).run RingOp.exec emptyArena =
      some ((), lineArena) := rfl
  have hok := Prog.wp_run (pushAll_spec (r := (⟨0, 4⟩ : SampleRing ℚ)) (m := emptyArena) ⟨2, rfl⟩
    (by decide) linePoses (.of_empty rfl rfl)) hw
  have hrun : ∃ s ex cs, exec ringStep loadsPublished (lapCall 20 .hold) earlyEvents = some s ∧
      s.prog none = .ret (some (.ok ex, cs)) ∧ ex.byNs = 0 := by
    refine ⟨_, _, _, rfl, rfl, ?_⟩
    decide
  obtain ⟨s, ex, cs, hs, hret, h0⟩ := hrun
  refine ⟨s, ex, cs, byNs_zero_sound ?_ ((walk_of_exec hs).mono
    fun s e h => watched_of_loadsPublished h _) hret h0, hret, h0⟩
  intro edge interp ring hring
  by_cases he : edge = 0
  · subst he
    cases hring
    exact hok.stamped (by decide)
  · have hnone : lineGuard.view.rings edge = none := if_neg he
    rw [ArenaView.sampler, hnone] at hring
    cases hring

/-- The call has loaded `head` when the writer laps the ring: three pushes complete, and the
    next one stores its stamp `1000` where that of `20` was. -/
def lateEvents : List (PoolEvent (Option EdgeId) Empty) :=
  .turn none :: (List.replicate 50 (.turn (some 0)) ++ List.replicate 14 (.turn none))

/-- At `900` a distance of `0` is reported, with the held pose of the stamp `50`; nothing
    later has been published. -/
theorem byNs_zero_misread : ∃ s ex cs,
    Walk ringStep anyStep (lapCall 900 .hold) lateEvents s ∧
    s.prog none = .ret (some (.ok ex, cs)) ∧ ex.byNs = 0 ∧ ex.pose = ⟨⟨1, 0, 0, 0⟩, ⟨10, 0, 0⟩⟩ ∧
    (∀ a ∈ (s.mem 0).published, a.1 ≤ 50) ∧
    ¬ linePlan.Interpolates lineGuard 900 0 .hold (fun _ => 0) lapSamples lineArena lateEvents
      s := by
  have hrun : ∃ s ex cs, execAll ringStep (lapCall 900 .hold) lateEvents = some s ∧
      s.prog none = .ret (some (.ok ex, cs)) ∧ ex.byNs = 0 ∧
      ex.pose = ⟨⟨1, 0, 0, 0⟩, ⟨10, 0, 0⟩⟩ ∧ ∀ a ∈ (s.mem 0).published, a.1 ≤ 50 := by
    refine ⟨_, _, _, rfl, rfl, ?_⟩
    with_unfolding_all decide
  obtain ⟨s, ex, cs, hs, hret, h0, hpose, hpub⟩ := hrun
  refine ⟨s, ex, cs, (walk_of_exec hs).mono fun _ _ _ => trivial, hret, h0, hpose, hpub,
    fun h => ?_⟩
  -- the call under `Error` does not come that far
  have hnone : (execAll ringStep (lapCall 900 .error) lateEvents).isNone = true := by
    decide
  have hsome := h.replayed.execAll_eq
  change execAll ringStep (lapCall 900 .error) lateEvents = _ at hsome
  rw [hsome] at hnone
  cases hnone

end TfTree
