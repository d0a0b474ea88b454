import TfTree.Core.Error
import Mathlib.Tactic.Common

/-!
# Published topologies

The block a `TopologyView` publishes (`tf_tree_core/src/topology.rs`) and the
paths of the forest it describes.

Results:
* `Climbs.prefix`: of two climbs from one frame the shorter begins the longer.
* `IsForest.dist_climbs`: a climb lowers the distance from the root by its length.
-/

namespace TfTree

/-! ## Model of `topology.rs` -/

/-- `TOPO_BLOCKS`. -/
def topoBlocks : ℕ := 4

/-- `Block`: three arrays over frame indices; index `0` is the reserved root slot. -/
structure Block where
  parent : ℕ → ℕ
  edgeOfChild : ℕ → ℕ
  depth : ℕ → ℕ

/-- `TopologyView`: the unpacked topology word, the blocks and the frame capacity. -/
structure TopologyView where
  generation : ℕ
  active : ℕ
  blocks : ℕ → Block
  maxFrames : ℕ

namespace TopologyView

/-- The published block. -/
def block (topo : TopologyView) : Block := topo.blocks (topo.active % topoBlocks)

/-- `TopologyView::read_frame` (lines 302–320) on a topology nobody mutates:
    `(parent, depth, edge)`. The fourth component of the source is `generation`. -/
def readFrame (topo : TopologyView) (child : FrameId) : Option (ℕ × ℕ × ℕ) :=
  if (child : ℕ) ≥ topo.maxFrames then none
  else some (topo.block.parent child, topo.block.depth child, topo.block.edgeOfChild child)

end TopologyView

/-! ## Forests -/

/-- The published block is an acyclic forest: every frame has a distance from its
    root, one more than its parent's, and stores it capped to a `u16`. -/
def TopologyView.IsForest (topo : TopologyView) : Prop :=
  ∃ dist : ℕ → ℕ, ∀ f : FrameId, (f : ℕ) < topo.maxFrames →
    topo.block.depth f = min 65535 (dist f) ∧
    (topo.block.parent f = 0 → dist f = 0) ∧
    (topo.block.parent f ≠ 0 → dist f = dist (topo.block.parent f) + 1)

/-- Climbing from a frame over the edges in the list, in that order, ends at the
    second frame. -/
inductive Climbs (topo : TopologyView) : FrameId → List ℕ → FrameId → Prop
  | refl (f : FrameId) : Climbs topo f [] f
  | step {f f' f'' : FrameId} {es : List ℕ} : (f : ℕ) < topo.maxFrames →
      topo.block.parent f = f' → Climbs topo f' es f'' →
      Climbs topo f (topo.block.edgeOfChild f :: es) f''

/-- `c` is an ancestor of `f`, or `f` itself. -/
def Anc (topo : TopologyView) (f c : FrameId) : Prop := ∃ es, Climbs topo f es c

/-- `m` is the lowest common ancestor of two frames. -/
def IsLca (topo : TopologyView) (target source m : FrameId) : Prop :=
  Anc topo target m ∧ Anc topo source m ∧
    ∀ c, Anc topo target c → Anc topo source c → Anc topo m c

section Climbs

variable {topo : TopologyView} {f g c : FrameId} {es es' : List ℕ}

theorem Climbs.trans (h : Climbs topo f es g) (h' : Climbs topo g es' c) :
    Climbs topo f (es ++ es') c := by
  induction h with
  | refl => exact h'
  | step hf hp _ ih => exact .step hf hp (ih h')

theorem Climbs.eq_of_nil (h : Climbs topo f [] c) : f = c := by
  cases h
  rfl

theorem Climbs.of_cons {e : ℕ} (h : Climbs topo f (e :: es) c) :
    ∃ f' : FrameId, topo.block.parent f = f' ∧ Climbs topo f' es c := by
  cases h with
  | step _ hp h => exact ⟨_, hp, h⟩

/-- Of two climbs from one frame the shorter begins the longer. -/
theorem Climbs.prefix (h : Climbs topo f es g) (h' : Climbs topo f es' c)
    (hlen : es.length ≤ es'.length) : ∃ us, es' = es ++ us ∧ Climbs topo g us c := by
  induction h generalizing es' with
  | refl => exact ⟨es', rfl, h'⟩
  | step hf hp _ ih =>
    cases h' with
    | refl => simp at hlen
    | step hf' hp' h'' =>
      obtain rfl := PNat.coe_injective (hp.symm.trans hp')
      obtain ⟨us, rfl, hus⟩ := ih h'' (by simpa using hlen)
      exact ⟨us, rfl, hus⟩

theorem Climbs.anc (h : Climbs topo f es g) : Anc topo f g := ⟨es, h⟩

/-- A climb lowers the distance from the root by its length. -/
theorem Climbs.dist {dist : ℕ → ℕ}
    (hd : ∀ f : FrameId, (f : ℕ) < topo.maxFrames → topo.block.parent f ≠ 0 →
      dist f = dist (topo.block.parent f) + 1)
    (h : Climbs topo f es g) : dist f = dist g + es.length := by
  induction h with
  | refl => rfl
  | step hf hp _ ih =>
    have hstep := hd _ hf (by rw [hp]; exact PNat.ne_zero _)
    rw [hp] at hstep
    rw [hstep, ih, List.length_cons]
    omega

end Climbs

end TfTree
