import Mathlib
import TfTree.Bridge.Clock
import TfTree.Ring.Carry
import TfTree.Shm.Claim
import TfTree.Tree.Built
import TfTree.Tree.Cache

/-!
# The writers of a tree

`Tree::claim` and `EdgeWriter` (`tf_tree/src/tree.rs`) on a tree that one process holds alone:
the claim records, the pushes with the samples of the clock offset, the drops, and the
reparents in between.

Results:
* `SampleRing.Newest.push_late`: a sample behind the newest one is refused.
* `WriterSys.Owned.step`: each step keeps one writer for each claimed edge.
* `WriterSys.publishes_run`: what the calls return, from every state of every run.
-/

namespace TfTree

open Conc

variable {F : Type}

/-! ## Model of `edge.rs` -/

/-- `ClaimRecord`; the heartbeat is a word of the ring. -/
structure ClaimRecord where
  owner : ℕ
  epoch : ℕ
  clockOffsetNanos : ℤ
  deriving DecidableEq, Repr

namespace ClaimRecord

/-- `ClaimRecord::new`. -/
def new : ClaimRecord := ⟨0, 0, 0⟩

/-- `claim` (lines 252–272): the epoch, the owner word and the record after it, or the slot of
the owner. -/
def claim (rec : ClaimRecord) (participant : Slot) : Except ℕ (ℕ × ℕ × ClaimRecord) :=
  if rec.owner = 0 then
    let epoch := (rec.epoch + 1) % 2 ^ 64
    let word := packOwner epoch participant
    .ok (epoch, word, { rec with owner := word, epoch := epoch })
  else .error (slotOf rec.owner)

/-- `release` (lines 302–307). -/
def release (rec : ClaimRecord) (owner : ℕ) : ClaimRecord :=
  if rec.owner = owner then { rec with owner := 0 } else rec

end ClaimRecord

/-! ## Model of `tree.rs` -/

/-- `DEFAULT_SAMPLE_EVERY`. -/
def DEFAULT_SAMPLE_EVERY : ℕ := 1024

/-- `sample_interval` (lines 795–803). -/
def sampleInterval (domain nominalRateMhz : ℕ) : ℕ :=
  if domain ≠ Bridge.systemTag then 0
  else if nominalRateMhz = 0 then DEFAULT_SAMPLE_EVERY
  else max (nominalRateMhz / 1000) 1

/-- `recorded_offset` (lines 782–787). -/
def recordedOffset (now stamp : ℤ) : ℤ :=
  if Bridge.satSub now stamp = 0 then 1 else Bridge.satSub now stamp

/-- `ClaimApiError`, as a heap tree returns it. -/
inductive ClaimApiError where
  | unknownFrame (child : FrameId)
  | noEdge (child : FrameId)
  | parentMismatch (child : FrameId) (expected actual : ℕ)
  | notDynamic (child : FrameId) (edge : EdgeId)
  | alreadyClaimed (edge : EdgeId) (ownerSlot : ℕ)
  deriving DecidableEq, Repr

/-- `EdgeWriter`, with the fields of its `Publisher`. -/
structure EdgeWriter (F : Type) where
  ring : SampleRing F
  epoch : ℕ
  owner : ℕ
  sampleEvery : ℕ
  untilSample : ℕ

/-- `EdgeWriter::sample_clock_offset` (lines 735–769): the writer after it, and the offset that
is recorded. `now` is what `now_nanos` returns. -/
def EdgeWriter.sampleClockOffset (w : EdgeWriter F) (now : Option ℤ) (stamp : ℤ) :
    EdgeWriter F × Option ℤ :=
  if w.untilSample ≠ 0 then ({ w with untilSample := w.untilSample - 1 }, none)
  else if w.sampleEvery = 0 then (w, none)
  else
    match now with
    | none => (w, none)
    | some now => ({ w with untilSample := w.sampleEvery - 1 }, some (recordedOffset now stamp))

/-- `Tree` over a heap arena: the arena, the claim table, and the slot of the process. -/
structure HeapTree (F : Type) where
  arena : Arena F
  claims : EdgeId → ClaimRecord
  participant : Slot

namespace HeapTree

variable (t : HeapTree F)

/-- The mark of the process on an entry of the table (`ArenaView::as_participant`). -/
def mark : ℕ :=
  if (t.participant : ℕ) < t.arena.header.maxParticipants then t.participant + 1
  else claimUnrecorded

/-- `Tree::frame` (lines 1109–1125). -/
def frame (fuel : ℕ) (name : String) : Option (Except FrameError (FrameId × HeapTree F)) :=
  match (t.arena.table.internCore 0 t.mark fuel (Bridge.asBytes name)).run
      (InternOp.exec t.arena.table) t.arena.frames with
  | some (some (.ok id), m) =>
    match FrameId.new id with
    | some f => some (.ok (f, { t with arena.frames := m }))
    | none => some (.error .capacityExceeded)
  | some (some (.error e), _) => some (.error e)
  | _ => none

/-- The tree with one claim record changed. -/
def setClaim (e : EdgeId) (rec : ClaimRecord) : HeapTree F :=
  { t with claims := upd t.claims e rec }

/-- `Tree::claim` (lines 1452–1543). -/
def claim (child parent : FrameId) : Option (Except ClaimApiError (EdgeWriter F) × HeapTree F) :=
  match (readFrame t.arena.table.maxFrames child).run TopoOp.exec t.arena.topology.mem with
  | none => none
  | some (none, _) => some (.error (.unknownFrame child), t)
  | some (some (p, _, edge, _), _) =>
    if edge = 0 then some (.error (.noEdge child), t)
    else if p ≠ parent then some (.error (.parentMismatch child parent p), t)
    else
      match t.arena.ring edge, t.arena.edge edge with
      | some (stamps, _), some rec =>
        match (t.claims edge).claim t.participant with
        | .error owner => some (.error (.alreadyClaimed edge owner), t)
        | .ok (epoch, owner, claimRec) =>
          some (.ok ⟨⟨edge, stamps.len⟩, epoch, owner,
              sampleInterval rec.domain rec.nominalRateMhz, 0⟩,
            t.setClaim edge { claimRec with clockOffsetNanos := 0 })
      | _, _ => some (.error (.notDynamic child edge), t)

/-- The claim record with the offset that a push recorded. -/
def record (e : EdgeId) : Option ℤ → HeapTree F
  | none => t
  | some offset => t.setClaim e { t.claims e with clockOffsetNanos := offset }

/-- `EdgeWriter::push` (lines 716–732): what it returns, with the writer after it. -/
def push (w : EdgeWriter F) (now : Option ℤ) (stamp : ℤ) (iso : Iso3 F) :
    Option (Except PushError (EdgeWriter F) × HeapTree F) :=
  match (publisherPush w.ring (t.claims w.ring.edge).epoch w.epoch stamp iso).run RingOp.exec
      t.arena.rings with
  | none => none
  | some (.error e, rings) => some (.error e, { t with arena.rings := rings })
  | some (.ok (), rings) =>
    let (w', offset) := w.sampleClockOffset now stamp
    some (.ok w', { t with arena.rings := rings }.record w.ring.edge offset)

/-- The drop of an `EdgeWriter`. -/
def drop (w : EdgeWriter F) : HeapTree F :=
  t.setClaim w.ring.edge ((t.claims w.ring.edge).release w.owner)

/-- `Tree::reparent`, on a heap tree, with the lock taken. -/
def reparent (child newParent : FrameId) : Option (Except ReparentError Unit × HeapTree F) :=
  ((Process.init : Process F).reparent ⟨0, .heap, 0, none⟩ t.arena (.ok ()) child newParent).map
    fun (res, a) => (res, { t with arena := a })

end HeapTree

/-- The tree of a process, and the writers that it has handed out. -/
structure WriterSys (F : Type) where
  tree : HeapTree F
  writers : List (Option (EdgeWriter F))

/-- The calls of the process. -/
inductive WriterEvent (F : Type) where
  | claim (child parent : FrameId)
  | push (i : ℕ) (now : Option ℤ) (stamp : ℤ) (iso : Iso3 F)
  | drop (i : ℕ)
  | reparent (child newParent : FrameId)

namespace WriterSys

/-- The writer `i` is there. -/
def Live (s : WriterSys F) (i : ℕ) (w : EdgeWriter F) : Prop := s.writers[i]? = some (some w)

/-- One call; `none` when it panics, or when the writer is gone. -/
def step (s : WriterSys F) : WriterEvent F → Option (WriterSys F)
  | .claim child parent =>
    (s.tree.claim child parent).map fun (res, t) =>
      match res with
      | .ok w => ⟨t, s.writers ++ [some w]⟩
      | .error _ => ⟨t, s.writers⟩
  | .push i now stamp iso => do
    let w ← s.writers[i]?.join
    let (res, t) ← s.tree.push w now stamp iso
    match res with
    | .ok w => some ⟨t, s.writers.set i (some w)⟩
    | .error _ => some ⟨t, s.writers⟩
  | .drop i => do
    let w ← s.writers[i]?.join
    some ⟨s.tree.drop w, s.writers.set i none⟩
  | .reparent child newParent =>
    (s.tree.reparent child newParent).map fun (_, t) => ⟨t, s.writers⟩

end WriterSys

/-! ## A push on a ring -/

section Ring

variable {r : SampleRing F} {m : RingArena F} {zs : List (ℤ × Iso3 F)}

/-- A sample behind the newest one is refused. -/
theorem SampleRing.Newest.push_late (h : r.Newest m zs) {stamp : ℤ} (iso : Iso3 F)
    (hlate : ¬ ∀ a ∈ zs, a.1 ≤ stamp) : ∃ last ∈ zs, stamp < last.1 ∧
      (r.push stamp iso).run RingOp.exec m =
        some (.error (.nonMonotonicStamp r.edge last.1 stamp), m) := by
  have hhead : (m r.edge).head = zs.length := by rw [h.ok.head, h.published]
  have hne : zs ≠ [] := by
    rintro rfl
    exact hlate (List.forall_mem_nil _)
  have hlast := h.newest _ (List.getLast?_eq_getLast_of_ne_nil hne)
  have hlt : stamp < (zs.getLast hne).1 := by
    by_contra hge
    refine hlate fun a ha => ?_
    have hsorted := h.ok.sorted
    rw [h.published] at hsorted
    rw [← List.dropLast_append_getLast hne] at hsorted ha
    rcases List.mem_append.mp ha with hinit | hend
    · exact ((List.pairwise_append.mp hsorted).2.2 a hinit _ (List.mem_singleton_self _)).trans
        (not_lt.mp hge)
    · rw [List.mem_singleton.mp hend]
      exact not_lt.mp hge
  refine ⟨zs.getLast hne, List.getLast_mem hne, hlt, ?_⟩
  have hpos := List.length_pos_iff.mpr hne
  unfold SampleRing.push
  rw [Prog.run_bind, r.run_loadHead, Option.bind_some]
  dsimp only
  rw [hhead, if_pos hpos, Prog.run_bind, r.run_stampAt, Option.bind_some]
  dsimp only
  rw [hlast.stamp, if_pos hlt]
  rfl

/-- What a push does: it takes the sample if no stamp is behind it, and else changes nothing. -/
theorem SampleRing.Newest.outcome (h : r.Newest m zs) (hp : r.PowerOfTwo) (stamp : ℤ)
    (iso : Iso3 F) :
    ((∀ a ∈ zs, a.1 ≤ stamp) ∧ ∃ m', (r.push stamp iso).run RingOp.exec m = some (.ok (), m') ∧
      r.Newest m' (zs ++ [(stamp, iso)]) ∧ ∀ e, e ≠ r.edge → m' e = m e) ∨
    ∃ last ∈ zs, stamp < last.1 ∧ (r.push stamp iso).run RingOp.exec m =
      some (.error (.nonMonotonicStamp r.edge last.1 stamp), m) := by
  by_cases hmono : ∀ a ∈ zs, a.1 ≤ stamp
  · obtain ⟨m', hrun, hnew⟩ := h.push hp iso hmono
    exact .inl ⟨hmono, m', hrun, hnew, fun e he => push_run_of_ne hrun he⟩
  · exact .inr (h.push_late iso hmono)

/-- Only the words of its own ring matter. -/
theorem SampleRing.Newest.of_same {m' : RingArena F} (h : r.Newest m zs)
    (hsame : m' r.edge = m r.edge) : r.Newest m' zs := by
  have hstamp : ∀ i, r.stampOf m' i = r.stampOf m i := by
    intro i
    unfold SampleRing.stampOf
    rw [hsame]
  have hholds : ∀ i x, r.Holds m i x → r.Holds m' i x := by
    intro i x hx
    refine ⟨?_, ?_, ?_⟩
    · rw [hstamp]
      exact hx.stamp
    · rw [hsame]
      exact hx.data
    · rw [hsame]
      exact hx.stable
  refine ⟨⟨?_, ?_, ?_⟩, ?_, fun x hx => hholds _ x (h.newest x hx)⟩
  · rw [hsame]
    exact h.ok.head
  · rw [hsame]
    exact h.ok.sorted
  · rw [hsame]
    exact fun i x hx hi => hholds i x (h.ok.stored i x hx hi)
  · rw [hsame]
    exact h.published

end Ring

/-! ## The calls -/

/-- The ring that a writer of the edge gets. -/
def Arena.handle (a : Arena F) (e : EdgeId) : Option (SampleRing F) :=
  (a.ring e).map fun ring => ⟨e, ring.1.len⟩

/-- The dynamic edge that attaches the child to the parent. -/
structure HeapTree.Attaches (t : HeapTree F) (child parent : FrameId) (r : SampleRing F) :
    Prop where
  lt : (child : ℕ) < t.arena.table.maxFrames
  parent : t.arena.topology.mem.block.parent child = parent
  edge : t.arena.topology.mem.block.edgeOfChild child = r.edge
  ne_zero : r.edge ≠ 0
  handle : t.arena.handle r.edge = some r

section Calls

variable {t : HeapTree F} {w : EdgeWriter F} {r : SampleRing F} {e : EdgeId}
  {zs : List (ℤ × Iso3 F)}

theorem Arena.handle_edge {a : Arena F} (h : a.handle e = some r) : r.edge = e := by
  obtain ⟨ring, -, rfl⟩ := Option.map_eq_some_iff.mp h
  rfl

theorem Arena.handle_powerOfTwo {a : Arena F} (h : a.handle e = some r) : r.PowerOfTwo := by
  obtain ⟨⟨stamps, poses⟩, hring, rfl⟩ := Option.map_eq_some_iff.mp h
  obtain ⟨slot, -, hof⟩ := Option.bind_eq_some_iff.mp hring
  obtain ⟨hfits, rfl, -⟩ := ringOf_eq_some hof
  have hpow := hfits.powerOfTwo
  unfold ArenaView.isPowerOfTwo at hpow
  simp only [Bool.and_eq_true, decide_eq_true_eq] at hpow
  exact Nat.ne_zero_and_sub_one_eq_zero_iff_isPowerOfTwo.mp hpow

/-- The record of an edge that has a ring. -/
theorem Arena.edge_of_handle {a : Arena F} (h : a.handle e = some r) :
    ∃ slot stamps poses, a.edge e = some slot ∧ a.ring e = some (stamps, poses) ∧
      r = ⟨e, stamps.len⟩ := by
  obtain ⟨⟨stamps, poses⟩, hring, rfl⟩ := Option.map_eq_some_iff.mp h
  obtain ⟨slot, hslot, -⟩ := Option.bind_eq_some_iff.mp hring
  exact ⟨slot, stamps, poses, hslot, hring, rfl⟩

/-- A claim of an edge that is attached is decided by the claim record. -/
theorem HeapTree.claim_attached {child parent : FrameId} (h : t.Attaches child parent r) :
    ∃ slot, t.arena.edge r.edge = some slot ∧ t.claim child parent =
      match (t.claims r.edge).claim t.participant with
      | .error owner => some (.error (.alreadyClaimed r.edge owner), t)
      | .ok (epoch, owner, rec) =>
        some (.ok ⟨r, epoch, owner, sampleInterval slot.domain slot.nominalRateMhz, 0⟩,
          t.setClaim r.edge { rec with clockOffsetNanos := 0 }) := by
  obtain ⟨slot, stamps, poses, hslot, hring, hr⟩ := Arena.edge_of_handle h.handle
  refine ⟨slot, hslot, ?_⟩
  unfold HeapTree.claim
  rw [readFrame_run, TopoArena.view_readFrame, if_neg (not_le.mpr h.lt)]
  dsimp only [Option.map_some]
  rw [h.edge, if_neg h.ne_zero, h.parent, if_neg (not_not_intro rfl), hring, hslot]
  dsimp only
  rw [← hr]

/-- Another claim is refused, and changes nothing. -/
theorem HeapTree.claim_refused {child parent : FrameId} (h : ∀ r, ¬ t.Attaches child parent r) :
    ∃ err, t.claim child parent = some (.error err, t) ∧
      ∀ edge owner, err ≠ .alreadyClaimed edge owner := by
  unfold HeapTree.claim
  rw [readFrame_run, TopoArena.view_readFrame]
  by_cases hlt : (child : ℕ) ≥ t.arena.table.maxFrames
  · rw [if_pos hlt]
    exact ⟨_, rfl, by simp⟩
  · rw [if_neg hlt]
    dsimp only [Option.map_some]
    by_cases h0 : t.arena.topology.mem.block.edgeOfChild child = 0
    · rw [if_pos h0]
      exact ⟨_, rfl, by simp⟩
    · rw [if_neg h0]
      by_cases hp : t.arena.topology.mem.block.parent child ≠ parent
      · rw [if_pos hp]
        exact ⟨_, rfl, by simp⟩
      · rw [if_neg hp]
        cases hring : t.arena.ring (t.arena.topology.mem.block.edgeOfChild child) with
        | none => exact ⟨_, rfl, by simp⟩
        | some ring =>
          refine absurd ⟨not_le.mp hlt, not_not.mp hp, rfl, h0, ?_⟩
            (h ⟨t.arena.topology.mem.block.edgeOfChild child, ring.1.len⟩)
          rw [Arena.handle, hring]
          rfl

@[simp] theorem HeapTree.setClaim_arena (e : EdgeId) (rec : ClaimRecord) :
    (t.setClaim e rec).arena = t.arena := rfl

@[simp] theorem HeapTree.record_arena (e : EdgeId) (offset : Option ℤ) :
    (t.record e offset).arena = t.arena := by
  cases offset with
  | none => rfl
  | some offset => rfl

/-- An offset changes neither the owner nor the epoch of a claim. -/
theorem HeapTree.record_claims (e e' : EdgeId) (offset : Option ℤ) :
    ((t.record e offset).claims e').owner = (t.claims e').owner ∧
      ((t.record e offset).claims e').epoch = (t.claims e').epoch := by
  cases offset with
  | none => exact ⟨rfl, rfl⟩
  | some offset =>
    show (upd t.claims e _ e').owner = _ ∧ (upd t.claims e _ e').epoch = _
    rw [upd_apply]
    split_ifs with he
    · rw [he]
      exact ⟨rfl, rfl⟩
    · exact ⟨rfl, rfl⟩

theorem HeapTree.record_participant (e : EdgeId) (offset : Option ℤ) :
    (t.record e offset).participant = t.participant := by
  cases offset with
  | none => rfl
  | some offset => rfl

/-- What a writer with the epoch of the record can expect of a push. -/
theorem HeapTree.push_spec (hepoch : (t.claims w.ring.edge).epoch = w.epoch)
    (hp : w.ring.PowerOfTwo) (hnew : w.ring.Newest t.arena.rings zs) (now : Option ℤ) (stamp : ℤ)
    (iso : Iso3 F) :
    ((∀ a ∈ zs, a.1 ≤ stamp) ∧ ∃ rings,
      (w.ring.push stamp iso).run RingOp.exec t.arena.rings = some (.ok (), rings) ∧
      t.push w now stamp iso =
        some (.ok (w.sampleClockOffset now stamp).1, { t with arena.rings := rings }.record
          w.ring.edge (w.sampleClockOffset now stamp).2) ∧
      w.ring.Newest rings (zs ++ [(stamp, iso)]) ∧
        ∀ e, e ≠ w.ring.edge → rings e = t.arena.rings e) ∨
    ∃ last ∈ zs, stamp < last.1 ∧
      t.push w now stamp iso = some (.error (.nonMonotonicStamp w.ring.edge last.1 stamp), t) := by
  have hpush : publisherPush w.ring (t.claims w.ring.edge).epoch w.epoch stamp iso =
      w.ring.push stamp iso := if_neg (not_not_intro hepoch)
  rcases hnew.outcome hp stamp iso with ⟨hmono, rings, hrun, hnew', hother⟩ |
    ⟨last, hlast, hlt, hrun⟩
  · refine .inl ⟨hmono, rings, hrun, ?_, hnew', hother⟩
    rw [HeapTree.push, hpush, hrun]
  · refine .inr ⟨last, hlast, hlt, ?_⟩
    rw [HeapTree.push, hpush, hrun]

/-- What a claim starts with. -/
theorem HeapTree.claim_starts {t t' : HeapTree F} {w : EdgeWriter F} {child parent : FrameId}
    (h : t.claim child parent = some (.ok w, t')) : w.untilSample = 0 ∧ t'.arena = t.arena ∧
      (∃ slot, t.arena.edge w.ring.edge = some slot ∧
        w.sampleEvery = sampleInterval slot.domain slot.nominalRateMhz) ∧
      (t'.claims w.ring.edge).clockOffsetNanos = 0 ∧
      ∀ e, e ≠ w.ring.edge → t'.claims e = t.claims e := by
  by_cases hr : ∃ r, t.Attaches child parent r
  · obtain ⟨r, hr⟩ := hr
    obtain ⟨slot, hslot, hclaim⟩ := HeapTree.claim_attached hr
    rw [hclaim] at h
    cases hrec : (t.claims r.edge).claim t.participant with
    | error owner =>
      rw [hrec] at h
      cases h
    | ok rec =>
      rw [hrec] at h
      cases h
      refine ⟨rfl, rfl, ⟨slot, hslot, rfl⟩, ?_, fun e he => upd_of_ne _ _ he⟩
      show (upd t.claims r.edge _ r.edge).clockOffsetNanos = 0
      rw [upd_self]
  · obtain ⟨err, herr, -⟩ := HeapTree.claim_refused fun r hr' => hr ⟨r, hr'⟩
    cases herr.symm.trans h

end Calls

/-- A tree that was built is wired. -/
theorem TreeBuilder.wired_of_build [Scalar F] (b : TreeBuilder F) {hash : List UInt8 → ℕ}
    {uuid : Vector UInt8 16} {fuel : ℕ} {a : Arena F} (hapart : Apart hash b.names)
    (hbuild : b.buildWith hash uuid fuel = some (.ok a)) :
    ∃ l : SizedLayout, b.Wired l b.edges a ∧ b.Fits ∧ l.toArenaLayout = b.implied := by
  cases hl : b.layout hash with
  | error e =>
    rw [TreeBuilder.buildWith, hl] at hbuild
    cases hbuild
  | ok l =>
    obtain ⟨hfits, himplied⟩ := b.layout_ok hl
    refine ⟨l, ?_, hfits, himplied⟩
    rcases TreeBuilder.buildWith_spec hl hapart uuid fuel with
      ⟨-, h, herr⟩ | ⟨-, -, child, herr⟩ | ⟨-, -, a', hwired, hok⟩
    · cases herr.symm.trans hbuild
    · cases herr.symm.trans hbuild
    · cases hok.symm.trans hbuild
      exact hwired

/-- The arena can hold the tree, no two names have one hash, and no frame is above itself. -/
structure TreeBuilder.Buildable (hash : List UInt8 → ℕ) (b : TreeBuilder F) : Prop where
  fits : b.Fits
  hashes : (hashesOf hash b.names).Nodup
  acyclic : ¬ b.Cyclic

/-- A height that grows from parents to children. -/
theorem TreeBuilder.acyclic_of_height {b : TreeBuilder F} (height : String → ℕ)
    (hstep : ∀ x y, b.Declares x y → height y < height x) : ¬ b.Cyclic := by
  rintro ⟨name, hname⟩
  have hlt : ∀ y, Relation.TransGen b.Declares name y → height y < height name := by
    intro y hy
    induction hy with
    | single h => exact hstep _ _ h
    | tail _ h ih => exact (hstep _ _ h).trans ih
  exact lt_irrefl _ (hlt name hname)

/-- A build goes through or fails. -/
theorem TreeBuilder.buildWith_ends [Scalar F] (b : TreeBuilder F) {hash : List UInt8 → ℕ}
    (hapart : Apart hash b.names) (uuid : Vector UInt8 16) (fuel : ℕ) :
    (b.Buildable hash ∧ ∃ a, b.buildWith hash uuid fuel = some (.ok a)) ∨
      (¬ b.Buildable hash ∧ ∃ e, b.buildWith hash uuid fuel = some (.error e)) := by
  cases hl : b.layout hash with
  | error e =>
    refine .inr ⟨fun h => ?_, e, by rw [TreeBuilder.buildWith, hl]⟩
    obtain ⟨l, hok⟩ := TreeBuilder.layout_ok_iff.mpr h.fits
    cases hl.symm.trans hok
  | ok l =>
    rcases TreeBuilder.buildWith_spec hl hapart uuid fuel with
      ⟨hdup, h, hbuild⟩ | ⟨-, hcyclic, child, hbuild⟩ | ⟨hnodup, hacyclic, a, -, hbuild⟩
    · exact .inr ⟨fun h => hdup h.hashes, _, hbuild⟩
    · exact .inr ⟨fun h => h.acyclic hcyclic, _, hbuild⟩
    · exact .inl ⟨⟨(b.layout_ok hl).1, hnodup, hacyclic⟩, a, hbuild⟩

/-- A dynamic edge of the declaration attaches its child to its parent. -/
theorem TreeBuilder.attaches_of_build [Scalar F] (b : TreeBuilder F) {hash : List UInt8 → ℕ}
    {uuid : Vector UInt8 16} {fuel : ℕ} {a : Arena F} (hapart : Apart hash b.names)
    (hbuild : b.buildWith hash uuid fuel = some (.ok a)) {i : ℕ} {e : EdgeDecl F} {cfg : EdgeCfg}
    (hi : b.edges[i]? = some e) (hkind : e.kind = .dynamic cfg) (claims : EdgeId → ClaimRecord)
    (participant : Slot) :
    (⟨a, claims, participant⟩ : HeapTree F).Attaches (b.idOf e.child) (b.idOf e.parent)
      ⟨i + 1, cfg.capacity.get⟩ := by
  obtain ⟨l, hwired, hfits, hlayout⟩ := b.wired_of_build hapart hbuild
  obtain ⟨hparent, hedge⟩ := hwired.link hfits.children hi
  refine ⟨?_, hparent, hedge, Nat.succ_ne_zero i, ?_⟩
  · have hlt := hwired.id_lt (TreeBuilder.ends_mem (List.mem_of_getElem? hi)).2
    rw [← hwired.size] at hlt
    exact hlt
  · rw [Arena.handle, hwired.ring hlayout hfits hi hkind]
    rfl

/-! ## The invariant -/

namespace WriterSys

/-- Every writer has the claim of its edge, and no claim is without a writer. -/
structure Owned (s : WriterSys F) : Prop where
  handle : ∀ i w, s.Live i w → s.tree.arena.handle w.ring.edge = some w.ring
  owner : ∀ i w, s.Live i w → (s.tree.claims w.ring.edge).owner = w.owner
  epoch : ∀ i w, s.Live i w → (s.tree.claims w.ring.edge).epoch = w.epoch
  names : ∀ i w, s.Live i w → Names w.owner s.tree.participant
  apart : ∀ i j w w', s.Live i w → s.Live j w' → w.ring.edge = w'.ring.edge → i = j
  free : ∀ e, (∀ i w, s.Live i w → w.ring.edge ≠ e) → (s.tree.claims e).owner = 0
  rings : ∀ e r, s.tree.arena.handle e = some r → ∃ zs, r.Newest s.tree.arena.rings zs

section Steps

variable {s : WriterSys F} {t : HeapTree F} {w w' : EdgeWriter F} {r : SampleRing F} {i j : ℕ}

theorem live_append : (⟨t, s.writers ++ [some w]⟩ : WriterSys F).Live j w' ↔
    s.Live j w' ∨ j = s.writers.length ∧ w' = w := by
  unfold Live
  rw [List.getElem?_append]
  split_ifs with hj
  · constructor
    · exact .inl
    · rintro (h | ⟨rfl, -⟩)
      · exact h
      · exact absurd hj (lt_irrefl _)
  · have hnone : s.writers[j]? = none := List.getElem?_eq_none (not_lt.mp hj)
    rw [hnone, List.getElem?_singleton]
    by_cases h0 : j - s.writers.length = 0
    · rw [if_pos h0]
      have hlen : j = s.writers.length := by omega
      simp [hlen, eq_comm]
    · rw [if_neg h0]
      have hlen : j ≠ s.writers.length := by omega
      simp [hlen]

theorem live_set (h : s.Live i w) {x : Option (EdgeWriter F)} :
    (⟨t, s.writers.set i x⟩ : WriterSys F).Live j w' ↔
      if j = i then x = some w' else s.Live j w' := by
  have hlt : i < s.writers.length := (List.getElem?_eq_some_iff.mp h).1
  unfold Live
  by_cases hj : j = i
  · subst hj
    rw [if_pos rfl, List.getElem?_set_self hlt]
    exact Option.some_inj
  · rw [if_neg hj, List.getElem?_set_ne (Ne.symm hj)]

/-- A claim that is free goes to the writer of the caller. -/
theorem Owned.claim (h : s.Owned) {e : EdgeId} {rec : ClaimRecord} {epoch owner : ℕ}
    (hhandle : s.tree.arena.handle e = some r) (hw : w.ring = r ∧ w.epoch = epoch ∧ w.owner = owner)
    (hnames : Names owner s.tree.participant) (hrec : rec.owner = owner ∧ rec.epoch = epoch)
    (hfree : (s.tree.claims e).owner = 0) :
    Owned ⟨s.tree.setClaim e rec, s.writers ++ [some w]⟩ := by
  obtain ⟨rfl, rfl, rfl⟩ := hw
  obtain rfl := Arena.handle_edge hhandle
  -- the other writers have other edges
  have hother : ∀ j w', s.Live j w' → w'.ring.edge ≠ w.ring.edge := by
    intro j w' hlive hedge
    have howner := h.owner j w' hlive
    rw [hedge, hfree] at howner
    exact (h.names j w' hlive).ne_zero howner.symm
  refine ⟨?_, ?_, ?_, ?_, ?_, ?_, h.rings⟩
  · intro j w' hlive
    rcases live_append.mp hlive with hold | ⟨-, rfl⟩
    · exact h.handle j w' hold
    · exact hhandle
  · intro j w' hlive
    show (upd s.tree.claims _ rec _).owner = _
    rcases live_append.mp hlive with hold | ⟨-, rfl⟩
    · rw [upd_of_ne _ _ (hother j w' hold)]
      exact h.owner j w' hold
    · rw [upd_self]
      exact hrec.1
  · intro j w' hlive
    show (upd s.tree.claims _ rec _).epoch = _
    rcases live_append.mp hlive with hold | ⟨-, rfl⟩
    · rw [upd_of_ne _ _ (hother j w' hold)]
      exact h.epoch j w' hold
    · rw [upd_self]
      exact hrec.2
  · intro j w' hlive
    rcases live_append.mp hlive with hold | ⟨-, rfl⟩
    · exact h.names j w' hold
    · exact hnames
  · intro j k w' w'' hlive hlive' hedge
    rcases live_append.mp hlive with hold | ⟨rfl, rfl⟩
    · rcases live_append.mp hlive' with hold' | ⟨-, rfl⟩
      · exact h.apart j k w' w'' hold hold' hedge
      · exact absurd hedge (hother j w' hold)
    · rcases live_append.mp hlive' with hold' | ⟨rfl, -⟩
      · exact absurd hedge.symm (hother k w'' hold')
      · rfl
  · intro e hnone
    show (upd s.tree.claims _ rec e).owner = 0
    rw [upd_of_ne _ _ (Ne.symm (hnone _ w (live_append.mpr (.inr ⟨rfl, rfl⟩))))]
    exact h.free e fun j w' hold => hnone j w' (live_append.mpr (.inl hold))

/-- A drop frees the claim of its edge. -/
theorem Owned.drop_owner (h : s.Owned) (hlive : s.Live i w) (e : EdgeId) :
    ((s.tree.drop w).claims e).owner = if e = w.ring.edge then 0 else (s.tree.claims e).owner := by
  show (upd s.tree.claims w.ring.edge _ e).owner = _
  rw [upd_apply]
  split_ifs with he
  · rw [ClaimRecord.release, if_pos (h.owner i w hlive)]
  · rfl

theorem Owned.drop (h : s.Owned) (hlive : s.Live i w) :
    Owned ⟨s.tree.drop w, s.writers.set i none⟩ := by
  have hrelease := h.drop_owner hlive
  have hepoch : ∀ e, ((s.tree.drop w).claims e).epoch = (s.tree.claims e).epoch := by
    intro e
    show (upd s.tree.claims w.ring.edge _ e).epoch = _
    rw [upd_apply]
    split_ifs with he
    · rw [ClaimRecord.release, if_pos (h.owner i w hlive), he]
    · rfl
  have hold : ∀ j w', (⟨s.tree.drop w, s.writers.set i none⟩ : WriterSys F).Live j w' →
      j ≠ i ∧ s.Live j w' := by
    intro j w' hj
    have hset := (live_set hlive).mp hj
    split_ifs at hset with hji
    exact ⟨hji, hset⟩
  have hother : ∀ j w', j ≠ i → s.Live j w' → w'.ring.edge ≠ w.ring.edge :=
    fun j w' hji hj hedge => hji (h.apart j i w' w hj hlive hedge)
  refine ⟨?_, ?_, ?_, ?_, ?_, ?_, h.rings⟩
  · exact fun j w' hj => h.handle j w' (hold j w' hj).2
  · intro j w' hj
    obtain ⟨hji, hj⟩ := hold j w' hj
    rw [hrelease, if_neg (hother j w' hji hj)]
    exact h.owner j w' hj
  · intro j w' hj
    obtain ⟨hji, hj⟩ := hold j w' hj
    rw [hepoch]
    exact h.epoch j w' hj
  · exact fun j w' hj => h.names j w' (hold j w' hj).2
  · exact fun j k w' w'' hj hk => h.apart j k w' w'' (hold j w' hj).2 (hold k w'' hk).2
  · intro e hnone
    rw [hrelease]
    split_ifs with he
    · rfl
    · refine h.free e fun j w' hj hedge => ?_
      by_cases hji : j = i
      · subst hji
        obtain rfl : w = w' := Option.some_inj.mp (Option.some_inj.mp (hlive.symm.trans hj))
        exact he hedge.symm
      · exact hnone j w' ((live_set hlive).mpr (by rwa [if_neg hji])) hedge

/-- A push changes the ring of its edge, and the recorded offset. -/
theorem Owned.push (h : s.Owned) (hlive : s.Live i w) {rings : RingArena F}
    {zs : List (ℤ × Iso3 F)} (hnew : w.ring.Newest rings zs)
    (hother : ∀ e, e ≠ w.ring.edge → rings e = s.tree.arena.rings e)
    (hw : w'.ring = w.ring ∧ w'.epoch = w.epoch ∧ w'.owner = w.owner) (offset : Option ℤ) :
    Owned ⟨{ s.tree with arena.rings := rings }.record w.ring.edge offset,
      s.writers.set i (some w')⟩ := by
  obtain ⟨hring, hepoch, howner⟩ := hw
  have hclaims := fun e => HeapTree.record_claims
    (t := { s.tree with arena.rings := rings }) w.ring.edge e offset
  have hold : ∀ j x, (⟨{ s.tree with arena.rings := rings }.record w.ring.edge offset,
      s.writers.set i (some w')⟩ : WriterSys F).Live j x →
      ∃ x', s.Live j x' ∧ x.ring = x'.ring ∧ x.epoch = x'.epoch ∧ x.owner = x'.owner := by
    intro j x hj
    have hset := (live_set hlive).mp hj
    split_ifs at hset with hji
    · obtain rfl := Option.some_inj.mp hset
      exact ⟨w, hji ▸ hlive, hring, hepoch, howner⟩
    · exact ⟨x, hset, rfl, rfl, rfl⟩
  refine ⟨?_, ?_, ?_, ?_, ?_, ?_, ?_⟩
  · intro j x hj
    obtain ⟨x', hx, hr, -, -⟩ := hold j x hj
    rw [HeapTree.record_arena, hr]
    exact h.handle j x' hx
  · intro j x hj
    obtain ⟨x', hx, hr, -, ho⟩ := hold j x hj
    rw [(hclaims _).1, hr, ho]
    exact h.owner j x' hx
  · intro j x hj
    obtain ⟨x', hx, hr, he, -⟩ := hold j x hj
    rw [(hclaims _).2, hr, he]
    exact h.epoch j x' hx
  · intro j x hj
    obtain ⟨x', hx, -, -, ho⟩ := hold j x hj
    rw [HeapTree.record_participant, ho]
    exact h.names j x' hx
  · intro j k x y hj hk hedge
    obtain ⟨x', hx, hrx, -, -⟩ := hold j x hj
    obtain ⟨y', hy, hry, -, -⟩ := hold k y hk
    rw [hrx, hry] at hedge
    exact h.apart j k x' y' hx hy hedge
  · intro e hnone
    rw [(hclaims e).1]
    refine h.free e fun j x hx hedge => ?_
    by_cases hji : j = i
    · subst hji
      obtain rfl : w = x := Option.some_inj.mp (Option.some_inj.mp (hlive.symm.trans hx))
      exact hnone j w' ((live_set hlive).mpr (by rw [if_pos rfl])) (hring ▸ hedge)
    · exact hnone j x ((live_set hlive).mpr (by rwa [if_neg hji])) hedge
  · intro e r hr
    rw [HeapTree.record_arena] at hr ⊢
    by_cases he : e = w.ring.edge
    · subst he
      obtain rfl : w.ring = r := Option.some_inj.mp ((h.handle i w hlive).symm.trans hr)
      exact ⟨zs, hnew⟩
    · obtain ⟨ys, hys⟩ := h.rings e r hr
      obtain rfl := Arena.handle_edge hr
      exact ⟨ys, hys.of_same (hother r.edge he)⟩

theorem sampleClockOffset_writer (w : EdgeWriter F) (now : Option ℤ) (stamp : ℤ) :
    (w.sampleClockOffset now stamp).1.ring = w.ring ∧
      (w.sampleClockOffset now stamp).1.epoch = w.epoch ∧
      (w.sampleClockOffset now stamp).1.owner = w.owner := by
  unfold EdgeWriter.sampleClockOffset
  split_ifs
  · exact ⟨rfl, rfl, rfl⟩
  · exact ⟨rfl, rfl, rfl⟩
  · cases now with
    | none => exact ⟨rfl, rfl, rfl⟩
    | some now => exact ⟨rfl, rfl, rfl⟩

/-- A claim of an attached edge is granted exactly if nobody writes it. -/
theorem Owned.claim_cases (h : s.Owned) {child parent : FrameId}
    (hr : s.tree.Attaches child parent r) :
    ((∀ i w, s.Live i w → w.ring.edge ≠ r.edge) ∧ ∃ w t,
      s.tree.claim child parent = some (.ok w, t) ∧ w.ring = r ∧ w.untilSample = 0 ∧
        Owned ⟨t, s.writers ++ [some w]⟩) ∨
    ((∃ i w, s.Live i w ∧ w.ring.edge = r.edge) ∧ s.tree.claim child parent =
      some (.error (.alreadyClaimed r.edge s.tree.participant), s.tree)) := by
  obtain ⟨slot, -, hclaim⟩ := HeapTree.claim_attached hr
  rw [hclaim]
  unfold ClaimRecord.claim
  by_cases h0 : (s.tree.claims r.edge).owner = 0
  · rw [if_pos h0]
    refine .inl ⟨fun i w hlive hedge => ?_, _, _, rfl, rfl, rfl, ?_⟩
    · have howner := h.owner i w hlive
      rw [hedge, h0] at howner
      exact (h.names i w hlive).ne_zero howner.symm
    · exact h.claim hr.handle ⟨rfl, rfl, rfl⟩ (packOwner_mod _ _) ⟨rfl, rfl⟩ h0
  · rw [if_neg h0]
    have hsome : ∃ i w, s.Live i w ∧ w.ring.edge = r.edge := by
      by_contra hnone
      exact h0 (h.free r.edge fun i w hlive hedge => hnone ⟨i, w, hlive, hedge⟩)
    obtain ⟨i, w, hlive, hedge⟩ := hsome
    refine .inr ⟨⟨i, w, hlive, hedge⟩, ?_⟩
    rw [← hedge, h.owner i w hlive, (h.names i w hlive).slotOf_eq]

theorem Owned.push_cases (h : s.Owned) (hlive : s.Live i w) (now : Option ℤ) (stamp : ℤ)
    (iso : Iso3 F) : ∃ zs, w.ring.Newest s.tree.arena.rings zs ∧
    (((∀ a ∈ zs, a.1 ≤ stamp) ∧ ∃ w' t, s.tree.push w now stamp iso = some (.ok w', t) ∧
        w.ring.Newest t.arena.rings (zs ++ [(stamp, iso)]) ∧
        (∀ e, e ≠ w.ring.edge → t.arena.rings e = s.tree.arena.rings e) ∧
        Owned ⟨t, s.writers.set i (some w')⟩) ∨
      ∃ last ∈ zs, stamp < last.1 ∧ s.tree.push w now stamp iso =
        some (.error (.nonMonotonicStamp w.ring.edge last.1 stamp), s.tree)) := by
  have hhandle := h.handle i w hlive
  obtain ⟨zs, hnew⟩ := h.rings _ _ hhandle
  refine ⟨zs, hnew, ?_⟩
  rcases HeapTree.push_spec (h.epoch i w hlive) (Arena.handle_powerOfTwo hhandle) hnew now stamp iso
    with ⟨hmono, rings, -, hpush, hnew', hother⟩ | hlate
  · refine .inl ⟨hmono, _, _, hpush, ?_, ?_,
      h.push hlive hnew' hother (sampleClockOffset_writer w now stamp) _⟩
    · rw [HeapTree.record_arena]
      exact hnew'
    · rw [HeapTree.record_arena]
      exact hother
  · exact .inr hlate

/-- A reparent returns, and changes only the topology. -/
theorem reparent_returns (t : HeapTree F) (child newParent : FrameId) :
    ∃ res topology, t.reparent child newParent =
      some (res, { t with arena.topology := topology }) := by
  unfold HeapTree.reparent Process.reparent
  rw [readFrame_run, TopoArena.view_readFrame]
  by_cases hlt : (child : ℕ) ≥ t.arena.table.maxFrames
  · rw [if_pos hlt]
    exact ⟨_, t.arena.topology, rfl⟩
  · rw [if_neg hlt]
    obtain ⟨res, topology, hset, -⟩ := t.arena.topology.setParent_outcome child newParent
      (t.arena.topology.mem.block.edgeOfChild child)
    by_cases h0 : t.arena.topology.mem.block.edgeOfChild child = 0
    · refine ⟨.error (.noEdge child), t.arena.topology, ?_⟩
      simp [Process.detached, Backing.isWritable, h0]
    · refine ⟨res.mapError .topology, topology, ?_⟩
      simp [Process.detached, Backing.isWritable, h0, hset]

/-- **Step lemma.** Every call keeps one writer for each claimed edge. -/
theorem Owned.step {e : WriterEvent F} {s' : WriterSys F} (h : s.Owned)
    (hs : s.step e = some s') : s'.Owned := by
  cases e with
  | claim child parent =>
    obtain ⟨⟨res, t⟩, hclaim, rfl⟩ := Option.map_eq_some_iff.mp hs
    by_cases hr : ∃ r, s.tree.Attaches child parent r
    · obtain ⟨r, hr⟩ := hr
      rcases h.claim_cases hr with ⟨-, w, t', hok, -, -, howned⟩ | ⟨-, herr⟩
      · cases hok.symm.trans hclaim
        exact howned
      · cases herr.symm.trans hclaim
        exact h
    · obtain ⟨err, herr, -⟩ := HeapTree.claim_refused fun r hr' => hr ⟨r, hr'⟩
      cases herr.symm.trans hclaim
      exact h
  | push i now stamp iso =>
    obtain ⟨w, hw, hs⟩ := Option.bind_eq_some_iff.mp hs
    have hlive : s.Live i w := Option.join_eq_some_iff.mp hw
    obtain ⟨⟨res, t⟩, hpush, hs⟩ := Option.bind_eq_some_iff.mp hs
    obtain ⟨zs, -, hcases⟩ := h.push_cases hlive now stamp iso
    rcases hcases with ⟨-, w', t', hok, -, -, howned⟩ | ⟨last, -, -, herr⟩
    · cases hok.symm.trans hpush
      cases hs
      exact howned
    · cases herr.symm.trans hpush
      cases hs
      exact h
  | drop i =>
    obtain ⟨w, hw, hs⟩ := Option.bind_eq_some_iff.mp hs
    cases hs
    exact h.drop (Option.join_eq_some_iff.mp hw)
  | reparent child newParent =>
    obtain ⟨⟨res, t⟩, hreparent, rfl⟩ := Option.map_eq_some_iff.mp hs
    obtain ⟨res', topology, hreturns⟩ := reparent_returns s.tree child newParent
    cases hreturns.symm.trans hreparent
    exact ⟨h.handle, h.owner, h.epoch, h.names, h.apart, h.free, h.rings⟩

end Steps

/-! ## Runs -/

/-- A tree as `build` returns it. -/
def ofArena (a : Arena F) (participant : Slot) : WriterSys F :=
  ⟨⟨a, fun _ => .new, participant⟩, []⟩

theorem owned_ofArena [Scalar F] {a : Arena F} (participant : Slot) (ha : a.rings = emptyArena) :
    (ofArena a participant).Owned := by
  have hnone : ∀ i w, ¬ (ofArena a participant).Live i w := by
    intro i w h
    cases h
  refine ⟨?_, ?_, ?_, ?_, ?_, fun _ _ => rfl, fun e r hr => ⟨[], ?_⟩⟩
  · exact fun i w h => absurd h (hnone i w)
  · exact fun i w h => absurd h (hnone i w)
  · exact fun i w h => absurd h (hnone i w)
  · exact fun i w h => absurd h (hnone i w)
  · exact fun i j w w' h => absurd h (hnone i w)
  · refine .of_empty ?_ ?_
    · show (a.rings r.edge).head = 0
      rw [ha]
      rfl
    · show (a.rings r.edge).published = []
      rw [ha]
      rfl

/-- What the calls of a process return. -/
structure Publishes (s : WriterSys F) : Prop where
  /-- An edge has one writer. -/
  one : ∀ i j w w', s.Live i w → s.Live j w' → w.ring.edge = w'.ring.edge → i = j
  /-- A claim is held exactly while there is a writer. -/
  held : ∀ e, (s.tree.claims e).owner ≠ 0 ↔ ∃ i w, s.Live i w ∧ w.ring.edge = e
  /-- An edge is claimed if it has no writer, and is else refused with the own slot. -/
  claim : ∀ child parent r, s.tree.Attaches child parent r →
    ((∀ i w, s.Live i w → w.ring.edge ≠ r.edge) ∧
      ∃ w t, s.tree.claim child parent = some (.ok w, t) ∧ w.ring = r) ∨
    ((∃ i w, s.Live i w ∧ w.ring.edge = r.edge) ∧ s.tree.claim child parent =
      some (.error (.alreadyClaimed r.edge s.tree.participant), s.tree))
  /-- A claim that attaches nothing is refused, and changes nothing. -/
  refused : ∀ child parent, (∀ r, ¬ s.tree.Attaches child parent r) →
    ∃ err, s.tree.claim child parent = some (.error err, s.tree) ∧
      ∀ edge owner, err ≠ .alreadyClaimed edge owner
  /-- A sample is taken if no stamp is behind it, and the ring carries it; a late sample is
  refused. The claim is never revoked. -/
  push : ∀ i w, s.Live i w → ∃ zs, w.ring.Carries s.tree.arena.rings zs ∧ ∀ now stamp iso,
    ((∀ a ∈ zs, a.1 ≤ stamp) ∧ ∃ w' t, s.tree.push w now stamp iso = some (.ok w', t) ∧
      w.ring.Carries t.arena.rings (zs ++ [(stamp, iso)]) ∧
      ∀ e, e ≠ w.ring.edge → t.arena.rings e = s.tree.arena.rings e) ∨
    ∃ last ∈ zs, stamp < last.1 ∧ s.tree.push w now stamp iso =
      some (.error (.nonMonotonicStamp w.ring.edge last.1 stamp), s.tree)
  /-- A drop frees the claim of its edge, and no other one. -/
  drop : ∀ i w, s.Live i w → ∀ e, ((s.tree.drop w).claims e).owner =
    if e = w.ring.edge then 0 else (s.tree.claims e).owner
  /-- The topology changes under the writers. -/
  reparent : ∀ child newParent, ∃ res topology, s.tree.reparent child newParent =
    some (res, { s.tree with arena.topology := topology })

theorem Owned.publishes {s : WriterSys F} (h : s.Owned) : s.Publishes where
  one := h.apart
  held := by
    intro e
    constructor
    · intro hne
      by_contra hnone
      exact hne (h.free e fun i w hlive hedge => hnone ⟨i, w, hlive, hedge⟩)
    · rintro ⟨i, w, hlive, rfl⟩
      rw [h.owner i w hlive]
      exact (h.names i w hlive).ne_zero
  claim := by
    intro child parent r hr
    rcases h.claim_cases hr with ⟨hfree, w, t, hok, hring, -, -⟩ | herr
    · exact .inl ⟨hfree, w, t, hok, hring⟩
    · exact .inr herr
  push := by
    intro i w hlive
    have hpow := Arena.handle_powerOfTwo (h.handle i w hlive)
    obtain ⟨zs, hnew⟩ := h.rings _ _ (h.handle i w hlive)
    refine ⟨zs, hnew.carries hpow, fun now stamp iso => ?_⟩
    obtain ⟨zs', hnew', hcases⟩ := h.push_cases hlive now stamp iso
    obtain rfl : zs' = zs := hnew'.published.symm.trans hnew.published
    rcases hcases with ⟨hmono, w', t, hok, hafter, hother, -⟩ | hlate
    · exact .inl ⟨hmono, w', t, hok, hafter.carries hpow, hother⟩
    · exact .inr hlate
  refused := fun child parent hnone => HeapTree.claim_refused hnone
  drop := fun i w hlive => h.drop_owner hlive
  reparent := reparent_returns s.tree

/-- **Main theorem.** A process that builds a tree and is alone with it has one writer for each
claimed edge, whatever it claims, pushes, drops and reparents; none of its writers is revoked,
and no call panics. -/
theorem publishes_run [Scalar F] {b : TreeBuilder F} {hash : List UInt8 → ℕ}
    {uuid : Vector UInt8 16} {fuel : ℕ} {a : Arena F} {participant : Slot} {s : WriterSys F}
    (hbuild : b.buildWith hash uuid fuel = some (.ok a))
    (hrun : Reachable step (ofArena a participant) s) : s.Publishes := by
  have hpreserved : Preserved step anyStep (Owned (F := F)) :=
    fun s e s' howned _ hstep => howned.step hstep
  have hinit := owned_ofArena participant (TreeBuilder.rings_of_build hbuild)
  exact (hrun.invariant hpreserved hinit).publishes

/-- The claim of the middle frame of the chain. -/
def claimBase : WriterEvent Bridge.Hundredths :=
  .claim (chainBuilder.idOf "base") (chainBuilder.idOf "odom")

theorem attaches_base {a : Arena Bridge.Hundredths}
    (hbuild : chainBuilder.buildWith chainHash (Vector.replicate 16 0) 0 = some (.ok a))
    {t : HeapTree Bridge.Hundredths} (harena : t.arena = a) :
    t.Attaches (chainBuilder.idOf "base") (chainBuilder.idOf "odom")
      ⟨1, (EdgeCfg.ofSlots 1).capacity.get⟩ := by
  have hattaches := chainBuilder.attaches_of_build apart_chain hbuild List.getElem?_cons_zero rfl
    t.claims t.participant
  rwa [← harena] at hattaches

/-- A writer for the middle frame of the chain. -/
theorem claim_chain {a : Arena Bridge.Hundredths}
    (hbuild : chainBuilder.buildWith chainHash (Vector.replicate 16 0) 0 = some (.ok a)) :
    ∃ w t, (ofArena a 0).tree.claim (chainBuilder.idOf "base") (chainBuilder.idOf "odom") =
        some (.ok w, t) ∧ w.ring = ⟨1, (EdgeCfg.ofSlots 1).capacity.get⟩ ∧ t.arena = a ∧
      (ofArena a 0).step claimBase = some ⟨t, [some w]⟩ ∧ Owned ⟨t, [some w]⟩ ∧
      w.ring.Newest t.arena.rings [] := by
  have hrings := TreeBuilder.rings_of_build hbuild
  rcases (owned_ofArena 0 hrings).claim_cases (attaches_base hbuild rfl) with
    ⟨-, w, t, hclaim, hring, -, howned⟩ | ⟨⟨i, w, hlive, -⟩, -⟩
  · obtain ⟨-, harena, -, -, -⟩ := HeapTree.claim_starts hclaim
    refine ⟨w, t, hclaim, hring, harena, ?_, howned, .of_empty ?_ ?_⟩
    · rw [claimBase, WriterSys.step, hclaim]
      rfl
    · rw [harena]
      show (a.rings _).head = 0
      rw [hrings]
      rfl
    · rw [harena]
      show (a.rings _).published = []
      rw [hrings]
      rfl
  · cases hlive

/-- The middle frame of the chain is claimed, claimed once more, moved and given up. -/
theorem publishes_run_chain : ∃ a s₁ s₂ s₃,
    chainBuilder.buildWith chainHash (Vector.replicate 16 0) 0 = some (.ok a) ∧
      (ofArena a 0).step claimBase = some s₁ ∧ s₁.step claimBase = some s₁ ∧
      s₁.step (.push 0 none 3 (Iso3.fromBits fun _ => 0)) = some s₂ ∧
      (s₂.tree.arena.rings 1).published = [(3, Iso3.fromBits fun _ => 0)] ∧ s₂.Publishes ∧
      s₂.step (.drop 0) = some s₃ ∧ (s₃.tree.claims 1).owner = 0 ∧ s₃.Publishes := by
  obtain ⟨a, hbuild, -⟩ := built_chain
  obtain ⟨w, t, -, hring, harena, hclaimed, howned, hnew⟩ := claim_chain hbuild
  have hedge : w.ring.edge = 1 := by rw [hring]
  have hagain : step ⟨t, [some w]⟩ claimBase = some ⟨t, [some w]⟩ := by
    rcases howned.claim_cases (attaches_base hbuild harena) with ⟨hfree, -⟩ | ⟨-, hrefused⟩
    · exact absurd hedge (hfree 0 w rfl)
    · rw [claimBase, WriterSys.step, hrefused]
      rfl
  obtain ⟨zs, hzs, hcases⟩ := howned.push_cases (i := 0) rfl none 3 (Iso3.fromBits fun _ => 0)
  obtain rfl : zs = [] := hzs.published.symm.trans hnew.published
  rcases hcases with ⟨-, w', t', hpush, hafter, -, howned'⟩ | ⟨last, hlast, -⟩
  · have hpushed : step ⟨t, [some w]⟩ (.push 0 none 3 (Iso3.fromBits fun _ => 0)) =
        some ⟨t', [some w']⟩ := by
      show (t.push w none 3 _ >>= _) = _
      rw [hpush]
      rfl
    have hdrop : step ⟨t', [some w']⟩ (.drop 0) = some ⟨t'.drop w', [none]⟩ := rfl
    have hrun : Reachable step (ofArena a 0) ⟨t', [some w']⟩ :=
      (Conc.Runs.refl.step trivial hclaimed).step trivial hpushed
    have hend : Publishes ⟨t'.drop w', [none]⟩ :=
      publishes_run hbuild (hrun.step trivial hdrop)
    refine ⟨a, _, _, _, hbuild, hclaimed, hagain, hpushed, ?_, publishes_run hbuild hrun, hdrop, ?_,
      hend⟩
    · rw [← hedge]
      exact hafter.published
    · -- nobody is left to hold the claim
      by_contra hheld
      obtain ⟨i, w, hlive, -⟩ := (hend.held 1).mp hheld
      have hmem : some w ∈ [(none : Option (EdgeWriter Bridge.Hundredths))] :=
        List.mem_of_getElem? hlive
      simp at hmem
  · cases hlast

end WriterSys

end TfTree
