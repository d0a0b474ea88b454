import Mathlib
import TfTree.Arena.View
import TfTree.Frame.Table
import TfTree.Plan.Eval
import TfTree.Topo.Walk

/-!
# The arena behind a tree

What the regions of an arena hold, as `tf_tree/src/tree.rs` reads it: the header, the
frame table, the topology, the edge records and the rings. `find`, `edge_meta` and the
compilation of a plan, on an arena that nobody else uses meanwhile.

Results:
* `Arena.compile_current`: compiling reads the last publication of the topology.
* `Topology.setParent_later`: a mutation keeps the publications before it.
* `Arena.Later.compileAt`: what an earlier publication compiles to does not change.
-/

namespace TfTree

open Conc

variable {F : Type}

/-! ## Model of the records -/

/-- `EdgeKind::from_u8`. -/
def EdgeKind.fromU8 (v : ℕ) : EdgeKind :=
  if v = 0 then .dynamic else if v = 1 then .static else .tombstone

/-- `EdgeRecord`, whole, without `head`, which is a word of the ring. -/
structure EdgeSlot (F : Type) extends EdgeRecord where
  parent : ℕ
  child : ℕ
  kind : ℕ
  interp : ℕ
  domain : ℕ
  nominalRateMhz : ℕ
  staticPose : Iso3 F

/-- The topology region, with a forest of `n` frames published. -/
structure Topology (n : ℕ) where
  mem : TopoArena
  coherent : mem.Coherent
  forest : mem.block.Forest n

/-- The regions of an arena; `instance_uuid` is a field of the header. -/
structure Arena (F : Type) where
  header : ArenaHeader
  instanceUuid : Vector UInt8 16
  table : InternTable
  maxFrames : header.maxFrames = table.maxFrames
  frames : InternMem
  topology : Topology table.maxFrames
  edges : EdgeId → EdgeSlot F
  rings : RingArena F

namespace Arena

variable (a : Arena F)

/-- `ArenaView::edge`. -/
def edge (id : EdgeId) : Option (EdgeSlot F) :=
  if id < a.header.maxEdges then some (a.edges id) else none

/-- `edge_meta` (lines 2315–2322). -/
def edgeMeta (eid : EdgeId) : Option (EdgeMeta (Iso3 F)) :=
  (a.edge eid).map fun e => ⟨EdgeKind.fromU8 e.kind, e.domain, e.staticPose⟩

/-- The part of the view that sampling reads: `ArenaView::sampler`. -/
def view : ArenaView where
  rings eid := (a.edge eid).bind fun e =>
    (ArenaView.ringBytes a.header e.toEdgeRecord).map fun (_, _, capacity) => (e.interp, capacity)

/-- `find` (lines 2303–2310); `none` while the name is being interned. -/
def find (fuel : ℕ) (name : List UInt8) : Option (Except LookupError FrameId) :=
  match (a.table.findCore fuel name).run (InternOp.exec a.table) a.frames with
  | some (some (.ok (some id)), _) =>
    match FrameId.new id with
    | some f => some (.ok f)
    | none => some (.error (.unknownFrame (a.table.hash name)))
  | some (some _, _) => some (.error (.unknownFrame (a.table.hash name)))
  | _ => none

/-- `TopologyView::stable_generation`. -/
def stableGeneration : ℕ := a.topology.mem.generation

/-- How often the topology was published. -/
def publications : ℕ := a.topology.mem.published.length

variable [Scalar F]

/-- `compile`, on the topology as it is. -/
def compile (target source : FrameId) : Except LookupError (Plan (Iso3 F)) :=
  TfTree.compile a.edgeMeta (a.topology.mem.view a.table.maxFrames) target source

/-- `compile`, on the publication `n` of the topology. -/
def compileAt (n : ℕ) (target source : FrameId) : Except LookupError (Plan (Iso3 F)) :=
  TfTree.compile a.edgeMeta (a.topology.mem.publication a.table.maxFrames n) target source

end Arena

/-! ## Mutations of a topology -/

namespace Topology

variable {n parent edge : ℕ} {t t' : Topology n} {child : FrameId} {m' : TopoArena}
  {res : Except TopologyError Unit}

theorem coherent_after (t : Topology n)
    (h : (TfTree.setParent n child parent edge).run TopoOp.exec t.mem = some (res, m')) :
    m'.Coherent ∧ m'.block.Forest n ∧ t.mem.published <+: m'.published := by
  obtain ⟨res', m'', hrun, hout⟩ := setParent_run t.forest child parent edge
  cases h.symm.trans hrun
  cases res with
  | error err =>
    obtain ⟨hword, hpub, hblock⟩ := hout.of_error
    refine ⟨⟨?_, ?_⟩, ?_, ?_⟩
    · rw [hword, hpub]
      exact t.coherent.word
    · rw [hpub, hblock]
      exact t.coherent.last
    · rw [hblock]
      exact t.forest
    · rw [hpub]
  | ok u =>
    obtain ⟨hcoherent, -, -, -, hforest⟩ := hout.of_ok t.coherent
    obtain ⟨-, -, -, m1, hsame, rfl, -⟩ := hout
    refine ⟨hcoherent, hforest, ?_⟩
    rw [m1.flip_published, hsame.published]
    exact List.prefix_append _ _

/-- `TopologyView::set_parent`, run to its end; `none` when it panics. -/
def setParent (t : Topology n) (child : FrameId) (parent edge : ℕ) :
    Option (Except TopologyError Unit × Topology n) :=
  match h : (TfTree.setParent n child parent edge).run TopoOp.exec t.mem with
  | none => none
  | some (res, m) => some (res, ⟨m, (t.coherent_after h).1, (t.coherent_after h).2.1⟩)

/-- The topology of a zeroed arena. -/
def init (n : ℕ) : Topology n where
  mem := (TopoRun.init fun _ => Block.empty).arena
  coherent := (TopoRun.ok_init n _).coherent
  forest := (TopoRun.ok_init n _).forest

/-- A dead holder of the lock: the inactive blocks are arbitrary. -/
def leave (t : Topology n) (garbage : ℕ → Block) : Topology n where
  mem := t.mem.leave garbage
  coherent := ⟨t.coherent.word, by
    rw [(t.mem.sameBut_leave garbage).2]
    exact t.coherent.last⟩
  forest := by
    rw [(t.mem.sameBut_leave garbage).2]
    exact t.forest

/-- A mutation keeps the publications before it. -/
theorem setParent_later (h : t.setParent child parent edge = some (res, t')) :
    t.mem.published <+: t'.mem.published := by
  unfold setParent at h
  split at h
  · cases h
  · next res' m hrun =>
    cases h
    exact (t.coherent_after hrun).2.2

end Topology

/-! ## Later states of an arena -/

/-- What may have happened to an arena: the records of its edges stay, and so do the
    publications of its topology. -/
structure Arena.Later (a a' : Arena F) : Prop where
  header : a'.header = a.header
  uuid : a'.instanceUuid = a.instanceUuid
  frames : a'.table.maxFrames = a.table.maxFrames
  edges : a'.edges = a.edges
  published : a.topology.mem.published <+: a'.topology.mem.published

namespace Arena

variable {a a' a'' : Arena F} {n : ℕ} {target source : FrameId}

theorem Later.refl (a : Arena F) : a.Later a := ⟨rfl, rfl, rfl, rfl, List.prefix_rfl⟩

theorem Later.trans (h : a.Later a') (h' : a'.Later a'') : a.Later a'' where
  header := h'.header.trans h.header
  uuid := h'.uuid.trans h.uuid
  frames := h'.frames.trans h.frames
  edges := h'.edges.trans h.edges
  published := h.published.trans h'.published

theorem Later.publications_le (h : a.Later a') : a.publications ≤ a'.publications :=
  h.published.length_le

theorem Later.edgeMeta (h : a.Later a') : a'.edgeMeta = a.edgeMeta := by
  funext eid
  simp only [Arena.edgeMeta, Arena.edge, h.header, h.edges]

/-- The last publication, as the topology word counts it. -/
theorem exists_current (a : Arena F) :
    ∃ n, a.publications = n + 1 ∧ a.stableGeneration = n % 2 ^ 56 := by
  obtain ⟨n, hn, -⟩ := a.topology.coherent.word
  exact ⟨n, hn, (a.topology.coherent.unpack hn).1⟩

variable [Scalar F]

theorem Later.compileAt (h : a.Later a') (hn : n < a.publications) :
    a'.compileAt n target source = a.compileAt n target source := by
  unfold Arena.compileAt
  rw [h.edgeMeta, TopoArena.publication_prefix hn h.published, h.frames]

/-- Compiling reads the last publication. -/
theorem compile_current (hn : a.publications = n + 1) :
    a.compile target source = a.compileAt n target source := by
  refine compile_congr (a.topology.coherent.unpack hn).1 ?_ rfl
  have hlast := a.topology.coherent.last
  rw [List.getLast?_eq_getElem?, show a.topology.mem.published.length = n + 1 from hn,
    Nat.add_sub_cancel] at hlast
  rw [TopoArena.view_block]
  show a.topology.mem.block = a.topology.mem.published[n]?.getD Block.empty
  rw [hlast]
  rfl

end Arena

end TfTree
