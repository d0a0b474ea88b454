import TfTree.Conc.Prog
import TfTree.Conc.System
import TfTree.Plan.Topology
import Mathlib.Data.Nat.Bitwise
import Mathlib.Data.List.Range

/-!
# The topology region

`tf_tree_core/src/topology.rs`: the packed topology word (`tf_tree_arena/src/header.rs`),
the blocks, the single atomic accesses to them, and `TopologyView::set_parent` and
`TopologyView::read_frame` as programs of such accesses.

A view's slices have one entry for each frame, so an index is checked against
`max_frames`; an index out of range is a panic, `Prog.abort`.

`TopoArena.published` is auxiliary: the contents of the blocks at the stores of the
topology word that made them active. No operation reads it.

* `unpackTopo_packTopo`: the generation has 56 bits.
-/

namespace TfTree

open Conc

/-! ## The topology word -/

/-- `pack_topo` (`header.rs` lines 29–31): a shift of a `u64` drops the high bits. -/
def packTopo (generation active : ℕ) : ℕ := (generation <<< 8) % 2 ^ 64 ||| active

/-- `unpack_topo` (`header.rs` lines 36–38). -/
def unpackTopo (word : ℕ) : ℕ × ℕ := (word >>> 8, word &&& 0xff)

theorem unpackTopo_packTopo (generation : ℕ) {active : ℕ} (h : active < 256) :
    unpackTopo (packTopo generation active) = (generation % 2 ^ 56, active) := by
  have hshift : (generation <<< 8) % 2 ^ 64 = (generation % 2 ^ 56) <<< 8 := by
    rw [Nat.shiftLeft_eq, Nat.shiftLeft_eq, show (2 : ℕ) ^ 64 = 2 ^ 56 * 2 ^ 8 from rfl,
      Nat.mul_mod_mul_right]
  have hword : packTopo generation active = (generation % 2 ^ 56) * 256 + active := by
    rw [packTopo, hshift, ← Nat.shiftLeft_add_eq_or_of_lt h, Nat.shiftLeft_eq]
  have hlow : packTopo generation active &&& 0xff = active := by
    rw [hword, show 0xff = 2 ^ 8 - 1 from rfl, Nat.and_two_pow_sub_one_eq_mod]
    omega
  have hhigh : packTopo generation active >>> 8 = generation % 2 ^ 56 := by
    rw [hword, Nat.shiftRight_eq_div_pow]
    omega
  rw [unpackTopo, hlow, hhigh]

/-! ## Shared words and atomic accesses -/

/-- The words of the topology region. -/
structure TopoArena where
  word : ℕ
  blocks : ℕ → Block
  published : List Block

/-- The generation the topology word carries. -/
def TopoArena.generation (m : TopoArena) : ℕ := (unpackTopo m.word).1

/-- The index of the active block. -/
def TopoArena.active (m : TopoArena) : ℕ := (unpackTopo m.word).2 % topoBlocks

/-- The published block. -/
def TopoArena.block (m : TopoArena) : Block := m.blocks m.active

/-- The atomic accesses of `topology.rs`; `b` is the index of a block. -/
inductive TopoOp where
  | loadWord
  | storeWord (w : ℕ)
  | loadParent (b f : ℕ)
  | storeParent (b f v : ℕ)
  | loadEdge (b f : ℕ)
  | storeEdge (b f v : ℕ)
  | loadDepth (b f : ℕ)
  | storeDepth (b f v : ℕ)

/-- The type of the value an access returns. -/
@[reducible] def TopoOp.Res : TopoOp → Type
  | .loadWord => ℕ
  | .loadParent _ _ => ℕ
  | .loadEdge _ _ => ℕ
  | .loadDepth _ _ => ℕ
  | _ => Unit

/-- The arena with the block `b` replaced. -/
def TopoArena.setBlock (m : TopoArena) (b : ℕ) (blk : Block) : TopoArena :=
  { m with blocks := upd m.blocks b blk }

/-- The meaning of one access. -/
def TopoOp.exec : (o : TopoOp) → TopoArena → o.Res × TopoArena
  | .loadWord, m => (m.word, m)
  | .storeWord w, m =>
    ((), { m with
      word := w
      published := m.published ++ [m.blocks ((unpackTopo w).2 % topoBlocks)] })
  | .loadParent b f, m => ((m.blocks b).parent f, m)
  | .storeParent b f v, m =>
    ((), m.setBlock b { m.blocks b with parent := upd (m.blocks b).parent f v })
  | .loadEdge b f, m => ((m.blocks b).edgeOfChild f, m)
  | .storeEdge b f v, m =>
    ((), m.setBlock b { m.blocks b with edgeOfChild := upd (m.blocks b).edgeOfChild f v })
  | .loadDepth b f, m => ((m.blocks b).depth f, m)
  | .storeDepth b f v, m =>
    ((), m.setBlock b { m.blocks b with depth := upd (m.blocks b).depth f v })

/-- Programs over the topology accesses. -/
abbrev TopoProg := Prog TopoOp TopoOp.Res

/-! ## Model of `topology.rs` -/

/-- `TopologyError`. -/
inductive TopologyError where
  | wouldCreateCycle (child : FrameId)
  | unknownFrame (frame : ℕ)
  deriving DecidableEq, Repr

/-- `self.topo.load`. -/
def loadTopo : TopoProg ℕ := Prog.op TopoOp.loadWord

/-- `self.topo.store`. -/
def storeTopo (w : ℕ) : TopoProg Unit := Prog.op (TopoOp.storeWord w)

/-- `blocks[b].parent[f].load`. -/
def loadParent (b f : ℕ) : TopoProg ℕ := Prog.op (TopoOp.loadParent b f)

/-- `blocks[b].parent[f].store`. -/
def storeParent (b f v : ℕ) : TopoProg Unit := Prog.op (TopoOp.storeParent b f v)

/-- `blocks[b].edge_of_child[f].load`. -/
def loadEdge (b f : ℕ) : TopoProg ℕ := Prog.op (TopoOp.loadEdge b f)

/-- `blocks[b].edge_of_child[f].store`. -/
def storeEdge (b f v : ℕ) : TopoProg Unit := Prog.op (TopoOp.storeEdge b f v)

/-- `blocks[b].depth[f].load`. -/
def loadDepth (b f : ℕ) : TopoProg ℕ := Prog.op (TopoOp.loadDepth b f)

/-- `blocks[b].depth[f].store`. -/
def storeDepth (b f v : ℕ) : TopoProg Unit := Prog.op (TopoOp.storeDepth b f v)

section Programs

variable (maxFrames : ℕ)

/-- `parent[cur as usize].load(..)`. -/
def parentAt (b cur : ℕ) : TopoProg ℕ :=
  if cur < maxFrames then loadParent b cur else Prog.abort

/-- The copy loop of `set_parent` (lines 271–277), over the frames in the list. -/
def copyFrames (src dst : ℕ) : List ℕ → TopoProg Unit
  | [] => pure ()
  | f :: fs => do
    let parent ← loadParent src f
    storeParent dst f parent
    let edge ← loadEdge src f
    storeEdge dst f edge
    copyFrames src dst fs

/-- The loop of `creates_cycle`, with the iterations left. -/
def cycleLoop (b child : ℕ) : ℕ → ℕ → TopoProg Bool
  | 0, _ => pure true
  | n + 1, cur =>
    if cur = 0 then pure false
    else if cur = child then pure true
    else do
      let cur' ← parentAt maxFrames b cur
      cycleLoop b child n cur'

/-- `creates_cycle` (lines 324–336). -/
def createsCycle (b child : ℕ) : TopoProg Bool := do
  let cur ← parentAt maxFrames b child
  cycleLoop maxFrames b child maxFrames cur

/-- The inner loop of `recompute_depths`, with the steps left; `d` is a `u16` that
    saturates. -/
def depthLoop (b : ℕ) : ℕ → ℕ → ℕ → TopoProg ℕ
  | 0, d, _ => pure d
  | n + 1, d, cur =>
    if cur = 0 then pure d
    else do
      let cur' ← parentAt maxFrames b cur
      depthLoop b n (min 65535 (d + 1)) cur'

/-- The outer loop of `recompute_depths`, over the frames in the list. -/
def depthFrames (b : ℕ) : List ℕ → TopoProg Unit
  | [] => pure ()
  | f :: fs => do
    let cur ← loadParent b f
    let d ← depthLoop maxFrames b maxFrames 0 cur
    storeDepth b f d
    depthFrames b fs

/-- `recompute_depths` (lines 339–351): `for f in 1..max_frames`. -/
def recomputeDepths (b : ℕ) : TopoProg Unit :=
  depthFrames maxFrames b (List.range' 1 (maxFrames - 1))

/-- `TopologyView::set_parent` (lines 251–295). -/
def setParent (child : FrameId) (parent edge : ℕ) : TopoProg (Except TopologyError Unit) :=
  if (child : ℕ) ≥ maxFrames then pure (.error (.unknownFrame child))
  else if parent ≥ maxFrames then pure (.error (.unknownFrame parent))
  else do
    let word ← loadTopo
    let src := (unpackTopo word).2 % topoBlocks
    let dst := (src + 1) % topoBlocks
    copyFrames src dst (List.range maxFrames)
    storeParent dst child parent
    storeEdge dst child edge
    if ← createsCycle maxFrames dst child then
      -- the active block was never touched
      return .error (.wouldCreateCycle child)
    else
      recomputeDepths maxFrames dst
      storeTopo (packTopo ((unpackTopo word).1 + 1) dst)
      return .ok ()

/-- `TOPO_RETRY_LIMIT`. -/
def topoRetryLimit : ℕ := 64

/-- The retry loop of `read_frame`, with the attempts left. -/
def readFrameLoop (c : ℕ) : ℕ → TopoProg (Option (ℕ × ℕ × ℕ × ℕ))
  | 0 => pure none
  | n + 1 => do
    let w1 ← loadTopo
    let blk := (unpackTopo w1).2 % topoBlocks
    let parent ← loadParent blk c
    let depth ← loadDepth blk c
    let edge ← loadEdge blk c
    let w2 ← loadTopo
    if w2 = w1 then return some (parent, depth, edge, (unpackTopo w1).1)
    else readFrameLoop c n

/-- `TopologyView::read_frame` (lines 302–320): `(parent, depth, edge_of_child,
    generation)`. -/
def readFrame (child : FrameId) : TopoProg (Option (ℕ × ℕ × ℕ × ℕ)) :=
  if (child : ℕ) ≥ maxFrames then pure none else readFrameLoop child topoRetryLimit

/-- `TopologyView::generation` (lines 228–230), and `stable_generation`. -/
def loadGeneration : TopoProg ℕ := do
  let word ← loadTopo
  return (unpackTopo word).1

end Programs

end TfTree
