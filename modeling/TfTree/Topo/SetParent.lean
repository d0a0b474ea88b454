import TfTree.Topo.Mem
import TfTree.Data.Rooted

/-!
# Histories of topology mutations

What `set_parent` (`tf_tree_core/src/topology.rs`) computes, and what histories of
its calls publish when dead holders of the mutation lock leave garbage in the
inactive blocks.

Results:
* `setParent_run`: a call on a published forest returns; it fails exactly on a
  frame out of range or a cycle, and publishes the forest with one new link.
* `set_parent_history`: the published block and the generation along every history.
-/

namespace TfTree

open Conc

/-! ## Published forests -/

/-- The parent links lead to the sentinel `0` inside the frames, and the stored
    depths are the distances from the roots, capped to a `u16`. -/
structure Block.Forest (maxFrames : ℕ) (blk : Block) : Prop where
  root : blk.parent 0 = 0
  lt : ∀ f < maxFrames, blk.parent f < maxFrames
  rooted : ∀ f < maxFrames, Rooted blk.parent 0 f
  depth : ∀ f < maxFrames, 0 < f → blk.depth f = min 65535 (hops blk.parent 0 (blk.parent f))

/-- The topology word counts the publications and names the last published block. -/
structure TopoArena.Coherent (m : TopoArena) : Prop where
  word : ∃ n, m.published.length = n + 1 ∧ m.word = packTopo n (n % topoBlocks)
  last : m.published.getLast? = some m.block

/-- `m'` differs from `m` in the block `b` at most. -/
structure TopoArena.SameBut (b : ℕ) (m m' : TopoArena) : Prop where
  word : m'.word = m.word
  published : m'.published = m.published
  blocks : ∀ b', b' ≠ b → m'.blocks b' = m.blocks b'

section SameBut

variable {m m' m'' : TopoArena} {b maxFrames : ℕ}

theorem TopoArena.SameBut.refl (b : ℕ) (m : TopoArena) : m.SameBut b m :=
  ⟨rfl, rfl, fun _ _ => rfl⟩

theorem TopoArena.SameBut.trans (h : m.SameBut b m') (h' : m'.SameBut b m'') :
    m.SameBut b m'' where
  word := h'.word.trans h.word
  published := h'.published.trans h.published
  blocks := fun b' hb => (h'.blocks b' hb).trans (h.blocks b' hb)

theorem TopoArena.sameBut_setBlock (m : TopoArena) (b : ℕ) (blk : Block) :
    m.SameBut b (m.setBlock b blk) where
  word := rfl
  published := rfl
  blocks := fun _ hb => upd_of_ne _ _ hb

@[simp] theorem TopoArena.setBlock_blocks (m : TopoArena) (b : ℕ) (blk : Block) :
    (m.setBlock b blk).blocks b = blk := upd_self _ _ _

/-- Stores to an inactive block do not touch the published one. -/
theorem TopoArena.SameBut.block (h : m.SameBut b m') (hb : m.active ≠ b) :
    m'.active = m.active ∧ m'.block = m.block := by
  have hactive : m'.active = m.active := by rw [TopoArena.active, h.word, TopoArena.active]
  refine ⟨hactive, ?_⟩
  rw [TopoArena.block, hactive, h.blocks _ hb, TopoArena.block]

theorem TopoArena.SameBut.generation (h : m.SameBut b m') : m'.generation = m.generation := by
  rw [TopoArena.generation, h.word, TopoArena.generation]

theorem TopoArena.SameBut.coherent (h : m.SameBut b m') (hb : m.active ≠ b) (hm : m.Coherent) :
    m'.Coherent where
  word := by
    rw [h.word, h.published]
    exact hm.word
  last := by rw [h.published, (h.block hb).2, hm.last]

/-- The word of a coherent arena, unpacked. -/
theorem TopoArena.Coherent.unpack (hm : m.Coherent) {n : ℕ} (hn : m.published.length = n + 1) :
    m.generation = n % 2 ^ 56 ∧ m.active = n % topoBlocks := by
  obtain ⟨n', hn', hw⟩ := hm.word
  obtain rfl : n' = n := by omega
  have hlt : n' % topoBlocks < 256 := by
    unfold topoBlocks
    omega
  rw [TopoArena.generation, TopoArena.active, hw, unpackTopo_packTopo _ hlt]
  exact ⟨rfl, Nat.mod_mod _ _⟩

/-- The block `set_parent` writes is not the active one. -/
theorem next_ne (a : ℕ) : a % topoBlocks ≠ (a % topoBlocks + 1) % topoBlocks := by
  unfold topoBlocks
  omega

/-- `g + 1` is packed the same from the generation of the word and from the count. -/
theorem packTopo_succ (n a : ℕ) : packTopo (n % 2 ^ 56 + 1) a = packTopo (n + 1) a := by
  rw [packTopo, packTopo, Nat.shiftLeft_eq, Nat.shiftLeft_eq,
    show (2 : ℕ) ^ 64 = 2 ^ 56 * 2 ^ 8 from rfl, Nat.mul_mod_mul_right, Nat.mul_mod_mul_right,
    Nat.mod_add_mod]

/-- The arena after the final store of `set_parent`. -/
def TopoArena.flip (m : TopoArena) : TopoArena :=
  (TopoOp.exec (.storeWord (packTopo (m.generation + 1) ((m.active + 1) % topoBlocks))) m).2

/-- The word of the final store, unpacked. -/
theorem unpackTopo_next (g a : ℕ) : unpackTopo (packTopo (g + 1) ((a + 1) % topoBlocks)) =
    ((g + 1) % 2 ^ 56, (a + 1) % topoBlocks) := by
  apply unpackTopo_packTopo
  unfold topoBlocks
  omega

theorem TopoArena.flip_generation (m : TopoArena) :
    m.flip.generation = (m.generation + 1) % 2 ^ 56 :=
  congrArg Prod.fst (unpackTopo_next m.generation m.active)

theorem TopoArena.flip_active (m : TopoArena) : m.flip.active = (m.active + 1) % topoBlocks := by
  have hun := congrArg Prod.snd (unpackTopo_next m.generation m.active)
  show (unpackTopo (packTopo (m.generation + 1) ((m.active + 1) % topoBlocks))).2 % topoBlocks = _
  rw [hun, Nat.mod_mod]

/-- The final store publishes the block after the active one. -/
theorem TopoArena.flip_block (m : TopoArena) :
    m.flip.block = m.blocks ((m.active + 1) % topoBlocks) := by
  rw [TopoArena.block, m.flip_active]
  rfl

theorem TopoArena.flip_published (m : TopoArena) :
    m.flip.published = m.published ++ [m.blocks ((m.active + 1) % topoBlocks)] := by
  have hactive := m.flip_active
  show m.published ++ [m.blocks m.flip.active] = _
  rw [hactive]

theorem TopoArena.Coherent.flip (hm : m.Coherent) : m.flip.Coherent := by
  obtain ⟨n, hn, -⟩ := hm.word
  obtain ⟨hgen, hactive⟩ := hm.unpack hn
  have hnext : (m.active + 1) % topoBlocks = (n + 1) % topoBlocks := by
    rw [hactive]
    unfold topoBlocks
    omega
  refine ⟨⟨n + 1, by rw [m.flip_published]; simp [hn], ?_⟩, ?_⟩
  · show packTopo (m.generation + 1) ((m.active + 1) % topoBlocks) = _
    rw [hgen, packTopo_succ, hnext]
  · rw [m.flip_published, m.flip_block, List.getLast?_concat]

end SameBut

/-! ## The loops of a call -/

section Loops

variable {m : TopoArena} {b src dst maxFrames c cur : ℕ} {p : ℕ → ℕ}

theorem copyFrames_run (hne : src ≠ dst) (fs : List ℕ) (m : TopoArena) :
    ∃ m', (copyFrames src dst fs).run TopoOp.exec m = some ((), m') ∧ m.SameBut dst m' ∧
      (∀ f, (m'.blocks dst).parent f =
        if f ∈ fs then (m.blocks src).parent f else (m.blocks dst).parent f) ∧
      ∀ f, (m'.blocks dst).edgeOfChild f =
        if f ∈ fs then (m.blocks src).edgeOfChild f else (m.blocks dst).edgeOfChild f := by
  induction fs generalizing m with
  | nil => exact ⟨m, rfl, .refl _ _, fun _ => by simp, fun _ => by simp⟩
  | cons f fs ih =>
    -- the two copies of the frame `f`
    obtain ⟨m1, hm1⟩ : ∃ m1, m1 = m.setBlock dst { m.blocks dst with
      parent := upd (m.blocks dst).parent f ((m.blocks src).parent f) } := ⟨_, rfl⟩
    obtain ⟨m2, hm2⟩ : ∃ m2, m2 = m1.setBlock dst { m1.blocks dst with
      edgeOfChild := upd (m1.blocks dst).edgeOfChild f ((m1.blocks src).edgeOfChild f) } :=
      ⟨_, rfl⟩
    have h01 : m.SameBut dst m1 := hm1 ▸ m.sameBut_setBlock _ _
    have h12 : m1.SameBut dst m2 := hm2 ▸ m1.sameBut_setBlock _ _
    have hrun : (copyFrames src dst (f :: fs)).run TopoOp.exec m =
        (copyFrames src dst fs).run TopoOp.exec m2 := by
      rw [hm2, hm1]
      rfl
    obtain ⟨m', hrun', hsame, hparent, hedge⟩ := ih m2
    have hsrc : m2.blocks src = m.blocks src := (h01.trans h12).blocks src hne
    have hsrc1 : m1.blocks src = m.blocks src := h01.blocks src hne
    refine ⟨m', hrun.trans hrun', (h01.trans h12).trans hsame, fun g => ?_, fun g => ?_⟩
    · rw [hparent, hsrc, hm2, TopoArena.setBlock_blocks, hm1, TopoArena.setBlock_blocks]
      by_cases hg : g = f
      · simp [hg]
      · simp [hg, upd_of_ne]
    · rw [hedge, hsrc, hm2, TopoArena.setBlock_blocks, hsrc1, hm1, TopoArena.setBlock_blocks]
      by_cases hg : g = f
      · simp [hg]
      · simp [hg, upd_of_ne]

/-- `parent[cur]` of a frame in range. -/
theorem parentAt_run (hcur : cur < maxFrames) (m : TopoArena) :
    (parentAt maxFrames b cur).run TopoOp.exec m = some ((m.blocks b).parent cur, m) := by
  rw [parentAt, if_pos hcur]
  rfl

/-- The bounded walk finds out whether the walk comes by `c`. The parents it reads
    are those of `p`, except at `c`. -/
theorem cycleLoop_run (hp : ∀ f < maxFrames, f ≠ c → (m.blocks b).parent f = p f)
    (hlt : ∀ f < maxFrames, p f < maxFrames) (h0 : p 0 = 0) (hc : c ≠ 0) {n : ℕ}
    (hcur : cur < maxFrames) (hroot : Rooted p 0 cur) (hn : hops p 0 cur < n) :
    ∃ res, (cycleLoop maxFrames b c n cur).run TopoOp.exec m = some (res, m) ∧
      (res = true ↔ ∃ k, p^[k] cur = c) := by
  induction n generalizing cur with
  | zero => omega
  | succ n ih =>
    rw [cycleLoop]
    by_cases hz : cur = 0
    · rw [if_pos hz]
      refine ⟨false, rfl, ⟨fun h => Bool.noConfusion h, ?_⟩⟩
      rintro ⟨k, hk⟩
      rw [hz, iterate_root h0] at hk
      exact absurd hk.symm hc
    rw [if_neg hz]
    by_cases hcc : cur = c
    · rw [if_pos hcc]
      exact ⟨true, rfl, fun _ => ⟨0, hcc⟩, fun _ => rfl⟩
    rw [if_neg hcc]
    have hhops := hroot.hops_succ hz
    obtain ⟨res, hrun, hres⟩ := ih (hlt cur hcur) (hroot.parent h0) (by omega)
    refine ⟨res, ?_, hres.trans ⟨?_, ?_⟩⟩
    · rw [Prog.run_bind, parentAt_run hcur, Option.bind_some, hp cur hcur hcc]
      exact hrun
    · rintro ⟨k, hk⟩
      exact ⟨k + 1, hk⟩
    · rintro ⟨k, hk⟩
      cases k with
      | zero => exact absurd hk hcc
      | succ k => exact ⟨k, hk⟩

/-- The inner loop counts the links to the root. -/
theorem depthLoop_run (hp : ∀ f < maxFrames, (m.blocks b).parent f = p f)
    (hlt : ∀ f < maxFrames, p f < maxFrames) (h0 : p 0 = 0) {n d : ℕ} (hcur : cur < maxFrames)
    (hroot : Rooted p 0 cur) (hn : hops p 0 cur ≤ n) (hd : d ≤ 65535) :
    (depthLoop maxFrames b n d cur).run TopoOp.exec m =
      some (min 65535 (d + hops p 0 cur), m) := by
  induction n generalizing cur d with
  | zero =>
    have hzero : hops p 0 cur = 0 := by omega
    rw [depthLoop, hzero, Nat.add_zero, min_eq_right hd]
    rfl
  | succ n ih =>
    rw [depthLoop]
    by_cases hz : cur = 0
    · rw [if_pos hz, hz, hops_self, Nat.add_zero, min_eq_right hd]
      rfl
    · have hhops := hroot.hops_succ hz
      rw [if_neg hz, Prog.run_bind, parentAt_run hcur, Option.bind_some, hp cur hcur,
        ih (hlt cur hcur) (hroot.parent h0) (by omega) (by omega)]
      congr 2
      omega

/-- `recompute_depths` over the frames in the list. -/
theorem depthFrames_run (hp : ∀ f < maxFrames, (m.blocks b).parent f = p f)
    (hlt : ∀ f < maxFrames, p f < maxFrames) (h0 : p 0 = 0)
    (hroot : ∀ f < maxFrames, Rooted p 0 f) (fs : List ℕ) (hfs : ∀ f ∈ fs, f < maxFrames) :
    ∃ m', (depthFrames maxFrames b fs).run TopoOp.exec m = some ((), m') ∧ m.SameBut b m' ∧
      (m'.blocks b).parent = (m.blocks b).parent ∧
      (m'.blocks b).edgeOfChild = (m.blocks b).edgeOfChild ∧
      ∀ f, (m'.blocks b).depth f =
        if f ∈ fs then min 65535 (hops p 0 (p f)) else (m.blocks b).depth f := by
  induction fs generalizing m with
  | nil => exact ⟨m, rfl, .refl _ _, rfl, rfl, fun _ => by simp⟩
  | cons f fs ih =>
    have hf : f < maxFrames := hfs f List.mem_cons_self
    have hshort : hops p 0 (p f) ≤ maxFrames := by
      have hcard := Rooted.hops_lt_card (hroot _ (hlt f hf)) (s := Finset.range maxFrames)
        (fun y hy => Finset.mem_range.mpr (hlt y (Finset.mem_range.mp hy)))
        (Finset.mem_range.mpr (hlt f hf))
      rw [Finset.card_range] at hcard
      omega
    obtain ⟨m1, hm1⟩ : ∃ m1, m1 = m.setBlock b { m.blocks b with
      depth := upd (m.blocks b).depth f (min 65535 (hops p 0 (p f))) } := ⟨_, rfl⟩
    have hblock : m1.blocks b = { m.blocks b with
        depth := upd (m.blocks b).depth f (min 65535 (hops p 0 (p f))) } := by
      rw [hm1, TopoArena.setBlock_blocks]
    have hrun : (depthFrames maxFrames b (f :: fs)).run TopoOp.exec m =
        (depthFrames maxFrames b fs).run TopoOp.exec m1 := by
      rw [depthFrames, Prog.run_bind]
      show ((depthLoop maxFrames b maxFrames 0 ((m.blocks b).parent f) >>= fun d =>
        storeDepth b f d >>= fun _ => depthFrames maxFrames b fs).run TopoOp.exec m) = _
      rw [Prog.run_bind, hp f hf, depthLoop_run hp hlt h0 (hlt f hf) (hroot _ (hlt f hf)) hshort
        (Nat.zero_le _), Nat.zero_add, hm1]
      rfl
    obtain ⟨m', hrun', hsame, hparent, hedge, hdepth⟩ := ih
      (show ∀ g < maxFrames, (m1.blocks b).parent g = p g by rw [hblock]; exact hp)
      (fun g hg => hfs g (List.mem_cons_of_mem _ hg))
    have h01 : m.SameBut b m1 := hm1 ▸ m.sameBut_setBlock _ _
    refine ⟨m', hrun.trans hrun', h01.trans hsame, ?_, ?_, fun g => ?_⟩
    · rw [hparent, hblock]
    · rw [hedge, hblock]
    · rw [hdepth, hblock]
      by_cases hg : g = f
      · simp [hg]
      · simp [hg, upd_of_ne]

end Loops

/-! ## One call -/

section Call

variable {m : TopoArena} {maxFrames parent edge : ℕ} {child : FrameId}

/-- What a successful call publishes: one new link, and the depths it leads to. -/
structure Block.Attached (maxFrames : ℕ) (blk : Block) (child : FrameId) (parent edge : ℕ)
    (blk' : Block) : Prop where
  parent : ∀ f < maxFrames, blk'.parent f = upd blk.parent child parent f
  edge : ∀ f < maxFrames, blk'.edgeOfChild f = upd blk.edgeOfChild child edge f

/-- Attaching the child makes it its own ancestor. -/
def Block.Closes (blk : Block) (child : FrameId) (parent : ℕ) : Prop :=
  ∃ k, blk.parent^[k] parent = child

theorem upd_eq_update (p : ℕ → ℕ) (c q : ℕ) : upd p c q = Function.update p c q := by
  funext f
  rw [upd_apply, Function.update_apply]

/-- The new links stay inside the frames. -/
theorem Block.Forest.attach_lt {blk : Block} (h : blk.Forest maxFrames) (hp : parent < maxFrames) :
    ∀ f < maxFrames, upd blk.parent child parent f < maxFrames := by
  intro f hf
  rw [upd_apply]
  split_ifs
  · exact hp
  · exact h.lt f hf

/-- Without a cycle the new links lead to the sentinel. -/
theorem Block.Forest.attach_rooted {blk : Block} (h : blk.Forest maxFrames)
    (hp : parent < maxFrames) (hcycle : ¬ blk.Closes child parent) :
    ∀ f < maxFrames, Rooted (upd blk.parent child parent) 0 f := by
  intro f hf
  rw [upd_eq_update]
  exact Rooted.update (h.rooted _ hp) (fun n hn => hcycle ⟨n, hn⟩) (h.rooted f hf)

/-- The published block with the new link is a forest again. -/
theorem Block.Forest.attach {blk blk' : Block} (h : blk.Forest maxFrames)
    (hp : parent < maxFrames) (hcycle : ¬ blk.Closes child parent)
    (ha : blk.Attached maxFrames child parent edge blk')
    (hd : ∀ f < maxFrames, 0 < f → blk'.depth f =
      min 65535 (hops (upd blk.parent child parent) 0 (upd blk.parent child parent f))) :
    blk'.Forest maxFrames := by
  have hlt : ∀ f < maxFrames, upd blk.parent child parent f < maxFrames := h.attach_lt hp
  have hclosed : ∀ y ∈ Set.Iio maxFrames, upd blk.parent child parent y ∈ Set.Iio maxFrames := hlt
  refine ⟨?_, fun f hf => ?_, fun f hf => ?_, fun f hf h0 => ?_⟩
  · rw [ha.parent 0 (by omega), upd_of_ne _ _ (PNat.ne_zero child).symm, h.root]
  · rw [ha.parent f hf]
    exact hlt f hf
  · exact (h.attach_rooted hp hcycle f hf).congr hclosed ha.parent hf
  · rw [hd f hf h0, ha.parent f hf, hops_congr hclosed ha.parent (hlt f hf)]

/-- The frames of a forest are fewer than `max_frames` links from the sentinel. -/
theorem Block.Forest.hops_lt {blk : Block} (h : blk.Forest maxFrames) {f : ℕ}
    (hf : f < maxFrames) : hops blk.parent 0 f < maxFrames := by
  have hcard := (h.rooted f hf).hops_lt_card (s := Finset.range maxFrames)
    (fun y hy => Finset.mem_range.mpr (h.lt y (Finset.mem_range.mp hy)))
    (Finset.mem_range.mpr hf)
  rwa [Finset.card_range] at hcard

/-- `creates_cycle` on the copy with the new link. -/
theorem createsCycle_run {blk : Block} (hf : blk.Forest maxFrames) {b : ℕ}
    (hc : (child : ℕ) < maxFrames) (hp : parent < maxFrames)
    (hb : ∀ f < maxFrames, (m.blocks b).parent f = upd blk.parent child parent f) :
    ∃ res, (createsCycle maxFrames b child).run TopoOp.exec m = some (res, m) ∧
      (res = true ↔ blk.Closes child parent) := by
  have hother : ∀ f < maxFrames, f ≠ child → (m.blocks b).parent f = blk.parent f := by
    intro f hfm hne
    rw [hb f hfm, upd_of_ne _ _ hne]
  obtain ⟨res, hrun, hres⟩ := cycleLoop_run hother hf.lt hf.root (PNat.ne_zero child) hp
    (hf.rooted _ hp) (hf.hops_lt hp)
  refine ⟨res, ?_, hres⟩
  rw [createsCycle, Prog.run_bind, parentAt_run hc, Option.bind_some, hb _ hc, upd_self]
  exact hrun

/-- `recompute_depths` on a copy with the new link that closes no cycle. -/
theorem recomputeDepths_run {blk : Block} (hf : blk.Forest maxFrames) {b : ℕ}
    (hp : parent < maxFrames) (hcycle : ¬ blk.Closes child parent)
    (hb : blk.Attached maxFrames child parent edge (m.blocks b)) :
    ∃ m', (recomputeDepths maxFrames b).run TopoOp.exec m = some ((), m') ∧ m.SameBut b m' ∧
      (m'.blocks b).parent = (m.blocks b).parent ∧
      (m'.blocks b).edgeOfChild = (m.blocks b).edgeOfChild ∧
      ∀ f < maxFrames, 0 < f → (m'.blocks b).depth f =
        min 65535 (hops (upd blk.parent child parent) 0 (upd blk.parent child parent f)) := by
  have h0 : upd blk.parent child parent 0 = 0 := by
    rw [upd_of_ne _ _ (PNat.ne_zero child).symm, hf.root]
  obtain ⟨m', hrun, hsame, hparent, hedge, hdepth⟩ := depthFrames_run hb.parent
    (hf.attach_lt hp) h0 (hf.attach_rooted hp hcycle) (List.range' 1 (maxFrames - 1))
    fun f hfs => by rw [List.mem_range'_1] at hfs; omega
  refine ⟨m', hrun, hsame, hparent, hedge, fun f hfm hpos => ?_⟩
  rw [hdepth, if_pos (List.mem_range'_1.mpr (by omega))]

/-- What a call that started in `m` leaves: on an error the block after the active one
    may differ; a success publishes that block, the forest with the new link. -/
def SetParentOutcome (maxFrames : ℕ) (m : TopoArena) (child : FrameId) (parent edge : ℕ) :
    Except TopologyError Unit → TopoArena → Prop
  | .error (.unknownFrame f), m' => m' = m ∧ maxFrames ≤ f ∧ (f = child ∨ f = parent)
  | .error (.wouldCreateCycle c), m' => m.SameBut ((m.active + 1) % topoBlocks) m' ∧
      c = child ∧ m.block.Closes child parent
  | .ok (), m' => (child : ℕ) < maxFrames ∧ parent < maxFrames ∧ ¬ m.block.Closes child parent ∧
      ∃ m'', m.SameBut ((m.active + 1) % topoBlocks) m'' ∧ m' = m''.flip ∧
        m.block.Attached maxFrames child parent edge m'.block ∧ m'.block.Forest maxFrames

/-- The copy and the new link, before the check for a cycle. -/
theorem linkFrames_run (maxFrames : ℕ) {dst : ℕ} (hne : m.active ≠ dst) (child : FrameId)
    (parent edge : ℕ) :
    ∃ m', (∀ k : TopoProg (Except TopologyError Unit),
        (copyFrames m.active dst (List.range maxFrames) >>= fun _ =>
          storeParent dst child parent >>= fun _ => storeEdge dst child edge >>= fun _ => k).run
            TopoOp.exec m = k.run TopoOp.exec m') ∧
      m.SameBut dst m' ∧ m.block.Attached maxFrames child parent edge (m'.blocks dst) := by
  obtain ⟨m1, hrun1, hsame1, hparent1, hedge1⟩ := copyFrames_run hne (List.range maxFrames) m
  obtain ⟨m2, hm2⟩ : ∃ m2, m2 = m1.setBlock dst { m1.blocks dst with
    parent := upd (m1.blocks dst).parent child parent } := ⟨_, rfl⟩
  obtain ⟨m3, hm3⟩ : ∃ m3, m3 = m2.setBlock dst { m2.blocks dst with
    edgeOfChild := upd (m2.blocks dst).edgeOfChild child edge } := ⟨_, rfl⟩
  refine ⟨m3, fun k => ?_, ?_, fun f hf => ?_, fun f hf => ?_⟩
  · rw [Prog.run_bind, hrun1, hm3, hm2]
    rfl
  · exact (hsame1.trans (hm2 ▸ m1.sameBut_setBlock _ _)).trans (hm3 ▸ m2.sameBut_setBlock _ _)
  · rw [hm3, TopoArena.setBlock_blocks, hm2, TopoArena.setBlock_blocks]
    simp only [upd_apply, hparent1, List.mem_range, if_pos hf]
    rfl
  · rw [hm3, TopoArena.setBlock_blocks, hm2, TopoArena.setBlock_blocks]
    simp only [upd_apply, hedge1, List.mem_range, if_pos hf]
    rfl

/-- **Step lemma.** A call on a published forest returns: it fails on a frame out of
    range and on a cycle, and else attaches the child. -/
theorem setParent_run (hf : m.block.Forest maxFrames) (child : FrameId) (parent edge : ℕ) :
    ∃ res m', (setParent maxFrames child parent edge).run TopoOp.exec m = some (res, m') ∧
      SetParentOutcome maxFrames m child parent edge res m' := by
  unfold setParent
  by_cases hc : (child : ℕ) ≥ maxFrames
  · rw [if_pos hc]
    exact ⟨.error (.unknownFrame child), m, rfl, rfl, hc, .inl rfl⟩
  rw [if_neg hc]
  by_cases hp : parent ≥ maxFrames
  · rw [if_pos hp]
    exact ⟨.error (.unknownFrame parent), m, rfl, rfl, hp, .inr rfl⟩
  rw [if_neg hp]
  have hne : m.active ≠ (m.active + 1) % topoBlocks := next_ne (unpackTopo m.word).2
  obtain ⟨m1, hrun1, hsame1, hlink⟩ := linkFrames_run maxFrames hne child parent edge
  obtain ⟨res, hcycle, hres⟩ := createsCycle_run hf (not_le.mp hc) (not_le.mp hp) hlink.parent
  cases res with
  | true =>
    refine ⟨.error (.wouldCreateCycle child), m1, ?_, hsame1, rfl, hres.mp rfl⟩
    exact (hrun1 _).trans (Prog.run_seq hcycle)
  | false =>
    have hcycle' : ¬ m.block.Closes child parent := fun h => Bool.noConfusion (hres.mpr h)
    -- the depths of the new forest
    obtain ⟨m2, hrun2, hsame2, hparent2, hedge2, hdepth2⟩ :=
      recomputeDepths_run hf (not_le.mp hp) hcycle' hlink
    have hsame : m.SameBut ((m.active + 1) % topoBlocks) m2 := hsame1.trans hsame2
    have hactive : m2.active = m.active := (hsame.block hne).1
    have hblock : m2.flip.block = m2.blocks ((m.active + 1) % topoBlocks) := by
      rw [m2.flip_block, hactive]
    have hattached : m.block.Attached maxFrames child parent edge m2.flip.block := by
      rw [hblock]
      exact ⟨fun f hf => by rw [hparent2, hlink.parent f hf],
        fun f hf => by rw [hedge2, hlink.edge f hf]⟩
    refine ⟨.ok (), m2.flip, ?_, not_le.mp hc, not_le.mp hp, hcycle', m2, hsame, rfl, hattached,
      hf.attach (not_le.mp hp) hcycle' hattached fun f hfm h0 => ?_⟩
    · refine (hrun1 _).trans ((Prog.run_seq hcycle).trans ((Prog.run_seq hrun2).trans ?_))
      rw [TopoArena.flip, hactive, hsame.generation]
      rfl
    · rw [hblock]
      exact hdepth2 f hfm h0

end Call

/-! ## Histories -/

/-- The view of the topology region that nobody mutates. -/
def TopoArena.view (maxFrames : ℕ) (m : TopoArena) : TopologyView where
  generation := m.generation
  active := m.active
  blocks := m.blocks
  maxFrames := maxFrames

@[simp] theorem TopoArena.view_block (maxFrames : ℕ) (m : TopoArena) :
    (m.view maxFrames).block = m.block :=
  congrArg m.blocks (Nat.mod_mod _ _)

/-- A block with no links. -/
def Block.empty : Block := ⟨fun _ => 0, fun _ => 0, fun _ => 0⟩

/-- The arena after a dead holder of the lock: the inactive blocks are arbitrary. -/
def TopoArena.leave (m : TopoArena) (garbage : ℕ → Block) : TopoArena :=
  { m with blocks := fun b => if b = m.active then m.blocks b else garbage b }

/-- A history of calls: the arena, the link each child was last given, and the number
    of calls that succeeded. -/
structure TopoRun where
  arena : TopoArena
  links : ℕ → ℕ × ℕ
  successes : ℕ

/-- What happens to the topology: a call of `set_parent`, or the death of a holder. -/
inductive TopoEvent where
  | call (child : FrameId) (parent edge : ℕ)
  | leave (garbage : ℕ → Block)

/-- One event of a history; `none` when the call panics. -/
def topoStep (maxFrames : ℕ) (s : TopoRun) : TopoEvent → Option TopoRun
  | .call child parent edge =>
    match (setParent maxFrames child parent edge).run TopoOp.exec s.arena with
    | none => none
    | some (.ok (), m) => some ⟨m, upd s.links child (parent, edge), s.successes + 1⟩
    | some (.error _, m) => some { s with arena := m }
  | .leave garbage => some { s with arena := s.arena.leave garbage }

/-- The empty topology, over inactive blocks with any content. -/
def TopoRun.init (garbage : ℕ → Block) : TopoRun where
  arena := {
    word := packTopo 0 0
    blocks := fun b => if b = 0 then Block.empty else garbage b
    published := [Block.empty] }
  links := fun _ => (0, 0)
  successes := 0

/-- The invariant of a history. -/
structure TopoRun.Ok (maxFrames : ℕ) (s : TopoRun) : Prop where
  coherent : s.arena.Coherent
  forest : s.arena.block.Forest maxFrames
  count : s.arena.published.length = s.successes + 1
  links : ∀ f < maxFrames, 0 < f →
    (s.arena.block.parent f, s.arena.block.edgeOfChild f) = s.links f

section Histories

variable {maxFrames : ℕ} {s s' : TopoRun} {m m' : TopoArena} {child : FrameId} {parent edge : ℕ}

theorem Block.forest_empty (maxFrames : ℕ) : Block.empty.Forest maxFrames where
  root := rfl
  lt := fun f hf => by
    show 0 < maxFrames
    omega
  rooted := fun f _ => ⟨1, rfl⟩
  depth := fun f _ _ => by
    show 0 = min 65535 (hops Block.empty.parent 0 0)
    rw [hops_self]
    rfl

theorem TopoRun.init_block (garbage : ℕ → Block) :
    (TopoRun.init garbage).arena.block = Block.empty := by
  have hactive : (TopoRun.init garbage).arena.active = 0 := by
    show (unpackTopo (packTopo 0 0)).2 % topoBlocks = 0
    decide
  rw [TopoArena.block, hactive]
  rfl

theorem TopoRun.ok_init (maxFrames : ℕ) (garbage : ℕ → Block) :
    (TopoRun.init garbage).Ok maxFrames where
  coherent := ⟨⟨0, rfl, rfl⟩, by rw [TopoRun.init_block]; rfl⟩
  forest := by
    rw [TopoRun.init_block]
    exact Block.forest_empty maxFrames
  count := rfl
  links := fun _ _ _ => by
    rw [TopoRun.init_block]
    rfl

theorem TopoArena.sameBut_leave (m : TopoArena) (garbage : ℕ → Block) :
    (m.leave garbage).word = m.word ∧ (m.leave garbage).block = m.block := by
  refine ⟨rfl, ?_⟩
  show (if m.active = m.active then m.blocks m.active else garbage m.active) = m.block
  rw [if_pos rfl]
  rfl

/-- A call that fails, as the history sees it. -/
theorem SetParentOutcome.of_error {err : TopologyError}
    (h : SetParentOutcome maxFrames m child parent edge (.error err) m') :
    m'.word = m.word ∧ m'.published = m.published ∧ m'.block = m.block := by
  have hne : m.active ≠ (m.active + 1) % topoBlocks := next_ne (unpackTopo m.word).2
  cases err with
  | unknownFrame f =>
    obtain ⟨rfl, -⟩ := h
    exact ⟨rfl, rfl, rfl⟩
  | wouldCreateCycle c =>
    obtain ⟨hsame, -⟩ := h
    exact ⟨hsame.word, hsame.published, (hsame.block hne).2⟩

/-- A rejected link would have put the child on a cycle. -/
theorem SetParentOutcome.not_rooted {c : FrameId} (hf : m.block.Forest maxFrames)
    (h : SetParentOutcome maxFrames m child parent edge (.error (.wouldCreateCycle c)) m') :
    ¬ Rooted (upd m.block.parent child parent) 0 child := by
  obtain ⟨-, -, hcloses⟩ := h
  rw [upd_eq_update]
  exact not_rooted_update hf.root (PNat.ne_zero child) hcloses

/-- A call that succeeds, as the history sees it. -/
theorem SetParentOutcome.of_ok (hm : m.Coherent)
    (h : SetParentOutcome maxFrames m child parent edge (.ok ()) m') :
    m'.Coherent ∧ m'.published.length = m.published.length + 1 ∧
      m'.generation = (m.generation + 1) % 2 ^ 56 ∧
      m.block.Attached maxFrames child parent edge m'.block ∧ m'.block.Forest maxFrames := by
  have hne : m.active ≠ (m.active + 1) % topoBlocks := next_ne (unpackTopo m.word).2
  obtain ⟨-, -, -, m'', hsame, rfl, hattached, hforest⟩ := h
  refine ⟨(hsame.coherent hne hm).flip, ?_, ?_, hattached, hforest⟩
  · rw [m''.flip_published, hsame.published, List.length_append, List.length_singleton]
  · rw [m''.flip_generation, hsame.generation]

/-- **Step lemma.** Every event of a history keeps the invariant. -/
theorem topoStep_ok : Preserved (topoStep maxFrames) anyStep (TopoRun.Ok maxFrames) := by
  intro s e s' hs _ hst
  cases e with
  | call child parent edge =>
    obtain ⟨res, m', hrun, hout⟩ := setParent_run hs.forest child parent edge
    simp only [topoStep, hrun] at hst
    cases res with
    | error err =>
      obtain rfl := Option.some_inj.mp hst
      obtain ⟨hword, hpub, hblock⟩ := hout.of_error
      have hcoherent := hs.coherent
      refine ⟨⟨?_, ?_⟩, ?_, ?_, ?_⟩
      · show ∃ n, m'.published.length = n + 1 ∧ m'.word = _
        rw [hword, hpub]
        exact hcoherent.word
      · show m'.published.getLast? = some m'.block
        rw [hpub, hblock]
        exact hcoherent.last
      · show m'.block.Forest maxFrames
        rw [hblock]
        exact hs.forest
      · show m'.published.length = _
        rw [hpub]
        exact hs.count
      · show ∀ f < maxFrames, 0 < f → (m'.block.parent f, m'.block.edgeOfChild f) = _
        rw [hblock]
        exact hs.links
    | ok u =>
      obtain rfl := Option.some_inj.mp hst
      obtain ⟨hcoherent, hcount, -, hattached, hforest⟩ := hout.of_ok hs.coherent
      refine ⟨hcoherent, hforest, hcount.trans (congrArg (· + 1) hs.count), fun f hf h0 => ?_⟩
      show (m'.block.parent f, m'.block.edgeOfChild f) = upd s.links child (parent, edge) f
      rw [hattached.parent f hf, hattached.edge f hf]
      by_cases hfc : f = child
      · rw [hfc, upd_self, upd_self, upd_self]
      · rw [upd_of_ne _ _ hfc, upd_of_ne _ _ hfc, upd_of_ne _ _ hfc, hs.links f hf h0]
  | leave garbage =>
    obtain rfl := Option.some_inj.mp hst
    obtain ⟨hword, hblock⟩ := s.arena.sameBut_leave garbage
    refine ⟨⟨hs.coherent.word, ?_⟩, ?_, hs.count, ?_⟩
    · show s.arena.published.getLast? = some (s.arena.leave garbage).block
      rw [hblock]
      exact hs.coherent.last
    · show (s.arena.leave garbage).block.Forest maxFrames
      rw [hblock]
      exact hs.forest
    · show ∀ f < maxFrames, 0 < f → ((s.arena.leave garbage).block.parent f,
        (s.arena.leave garbage).block.edgeOfChild f) = _
      rw [hblock]
      exact hs.links

/-- **Run lemma.** -/
theorem TopoRun.ok_of_reachable {garbage : ℕ → Block}
    (h : Reachable (topoStep maxFrames) (TopoRun.init garbage) s) : s.Ok maxFrames :=
  Runs.invariant h topoStep_ok (TopoRun.ok_init maxFrames garbage)

/-- The stored depths are distances from the root. -/
theorem Block.Forest.isForest (h : m.block.Forest maxFrames) : (m.view maxFrames).IsForest := by
  refine ⟨fun f => hops m.block.parent 0 (m.block.parent f), fun f hf => ?_⟩
  rw [TopoArena.view_block]
  have hlt := h.lt f hf
  refine ⟨h.depth f hf f.pos, fun hroot => ?_, fun hroot => ?_⟩
  · show hops m.block.parent 0 (m.block.parent f) = 0
    rw [hroot, hops_self]
  · exact (h.rooted _ hlt).hops_succ hroot

/-- What a call that returned `res` did to the published topology. -/
def PublishedBy (maxFrames : ℕ) (m : TopoArena) (child : FrameId) (parent edge : ℕ) :
    Except TopologyError Unit → TopoArena → Prop
  | .error _, m' => m'.block = m.block ∧ m'.generation = m.generation
  | .ok (), m' => m'.generation = (m.generation + 1) % 2 ^ 56 ∧
      m.block.Attached maxFrames child parent edge m'.block

/-- **Main theorem.** After every history of calls and deaths the published block is an
    acyclic forest, its depths are the distances from the roots, and each frame's link
    is the one it was last given. The next call returns; on an error it leaves the
    published block and the generation as they were, on `Ok` it adds one to the
    generation, modulo its 56 bits, and changes the link of the child only. -/
theorem set_parent_history {garbage : ℕ → Block}
    (h : Reachable (topoStep maxFrames) (TopoRun.init garbage) s) :
    (s.arena.view maxFrames).IsForest ∧
      (∀ f < maxFrames, 0 < f → s.arena.block.parent f < maxFrames ∧
        (s.arena.block.parent f, s.arena.block.edgeOfChild f) = s.links f) ∧
      s.arena.generation = s.successes % 2 ^ 56 ∧
      ∀ child parent edge, ∃ res m',
        (setParent maxFrames child parent edge).run TopoOp.exec s.arena = some (res, m') ∧
          PublishedBy maxFrames s.arena child parent edge res m' := by
  have hs := TopoRun.ok_of_reachable h
  refine ⟨hs.forest.isForest, fun f hf h0 => ⟨hs.forest.lt f hf, hs.links f hf h0⟩,
    (hs.coherent.unpack hs.count).1, fun child parent edge => ?_⟩
  obtain ⟨res, m', hrun, hout⟩ := setParent_run hs.forest child parent edge
  refine ⟨res, m', hrun, ?_⟩
  cases res with
  | error err =>
    obtain ⟨hword, -, hblock⟩ := hout.of_error
    exact ⟨hblock, by rw [TopoArena.generation, hword, TopoArena.generation]⟩
  | ok u =>
    obtain ⟨-, -, hgen, hattached, -⟩ := hout.of_ok hs.coherent
    exact ⟨hgen, hattached⟩

/-- One call on the empty topology of two frames, next to arbitrary other blocks. -/
theorem set_parent_history_first :
    ∃ s, Reachable (topoStep 3) (TopoRun.init fun _ => ⟨fun _ => 9, fun _ => 9, fun _ => 9⟩) s ∧
      (s.arena.view 3).IsForest ∧ s.links 2 = (1, 7) ∧ s.arena.generation = 1 := by
  obtain ⟨s, hs⟩ : ∃ s, execAll (topoStep 3)
      (TopoRun.init fun _ => ⟨fun _ => 9, fun _ => 9, fun _ => 9⟩) [.call 2 1 7] = some s :=
    ⟨_, rfl⟩
  have hr := reachable_of_execAll hs
  obtain ⟨hforest, -, hgen, -⟩ := set_parent_history hr
  cases hs
  exact ⟨_, hr, hforest, rfl, hgen⟩

/-- Histories with any number of successes. -/
theorem exists_successes (n : ℕ) : ∃ s,
    Reachable (topoStep 2) (TopoRun.init fun _ => Block.empty) s ∧ s.successes = n ∧
      ∃ m', (setParent 2 1 0 5).run TopoOp.exec s.arena = some (.ok (), m') := by
  have hok : ∀ s, Reachable (topoStep 2) (TopoRun.init fun _ => Block.empty) s →
      ∃ m', (setParent 2 1 0 5).run TopoOp.exec s.arena = some (.ok (), m') := by
    intro s h
    have hs := TopoRun.ok_of_reachable h
    obtain ⟨res, m', hrun, hout⟩ := setParent_run hs.forest 1 0 5
    match res, hout with
    | .ok (), _ => exact ⟨m', hrun⟩
    | .error (.unknownFrame f), ⟨_, hf, he⟩ =>
      rcases he with rfl | rfl
      · exact absurd hf (by decide)
      · exact absurd hf (by decide)
    | .error (.wouldCreateCycle c), ⟨_, _, k, hk⟩ =>
      rw [iterate_root hs.forest.root] at hk
      exact absurd hk (by decide)
  induction n with
  | zero => exact ⟨_, .refl, rfl, hok _ .refl⟩
  | succ n ih =>
    obtain ⟨s, hr, hn, m', hrun⟩ := ih
    have hnext : topoStep 2 s (.call 1 0 5) =
        some ⟨m', upd s.links (1 : FrameId) (0, 5), s.successes + 1⟩ := by
      simp only [topoStep, hrun]
    have hr' := hr.step trivial hnext
    exact ⟨_, hr', congrArg (· + 1) hn, hok _ hr'⟩

/-- After `2 ^ 56 - 1` successes the next one takes the generation back to `0`. -/
theorem generation_wraps : ∃ s,
    Reachable (topoStep 2) (TopoRun.init fun _ => Block.empty) s ∧
      s.arena.generation = 2 ^ 56 - 1 ∧
      ∃ m', (setParent 2 1 0 5).run TopoOp.exec s.arena = some (.ok (), m') ∧
        m'.generation = 0 := by
  obtain ⟨s, hr, hn, m', hrun⟩ := exists_successes (2 ^ 56 - 1)
  have hs := TopoRun.ok_of_reachable hr
  have hgen : s.arena.generation = 2 ^ 56 - 1 := by
    rw [(hs.coherent.unpack hs.count).1, hn]
    rfl
  obtain ⟨res, m'', hrun', hout⟩ := setParent_run hs.forest 1 0 5
  cases hrun.symm.trans hrun'
  refine ⟨s, hr, hgen, m', hrun, ?_⟩
  rw [(hout.of_ok hs.coherent).2.2.1, hgen]
  rfl

end Histories

end TfTree
