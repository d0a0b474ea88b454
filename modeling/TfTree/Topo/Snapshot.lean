import TfTree.Topo.SetParent

/-!
# Reading a topology while it is mutated

`read_frame` (`tf_tree_core/src/topology.rs`) in any interleaving with calls of
`set_parent` made one at a time, each of which may fail, succeed, or die after any
store.

The generation has 56 bits, so a reader that sleeps through `2 ^ 56` publications
does not notice them. The results are about reads with fewer publications between
their start and their end.

Results:
* `setParent_evolves`: no store of a call touches the published block; the last one
  publishes another block.
* `readFrame_race`: what `read_frame` returns is an entry of one published block.
* `torn_read`: it is not, after `2 ^ 56` publications.
-/

namespace TfTree

open Conc

/-! ## The mutators -/

/-- A holder of the mutation lock: its call, and after how many accesses it dies. -/
structure Holder where
  child : FrameId
  parent : ℕ
  edge : ℕ
  dies : Option ℕ

/-- What a holder does while it has the lock. -/
def Holder.mutate (maxFrames : ℕ) (h : Holder) : TopoProg Unit :=
  match h.dies with
  | none => do
    let _ ← setParent maxFrames h.child h.parent h.edge
    return ()
  | some n => (setParent maxFrames h.child h.parent h.edge).cut n

/-- Holders, one at a time. -/
def mutateAll (maxFrames : ℕ) : List Holder → TopoProg Unit
  | [] => pure ()
  | h :: hs => do
    h.mutate maxFrames
    mutateAll maxFrames hs

/-- What a reader may assume of a step of a mutator. -/
def TopoArena.Evolves (m m' : TopoArena) : Prop :=
  m.Coherent → m'.Coherent ∧ m.published <+: m'.published

/-- The access loads, or stores to the block `b`. -/
def TopoOp.Scratch (b : ℕ) : TopoOp → Prop
  | .loadWord | .loadParent _ _ | .loadEdge _ _ | .loadDepth _ _ => True
  | .storeParent b' _ _ | .storeEdge b' _ _ | .storeDepth b' _ _ => b' = b
  | .storeWord _ => False

section Mutators

variable {m m' m'' m₀ : TopoArena} {maxFrames b : ℕ}

theorem TopoArena.Evolves.refl (m : TopoArena) : m.Evolves m := fun h => ⟨h, List.prefix_rfl⟩

theorem TopoArena.Evolves.trans (h : m.Evolves m') (h' : m'.Evolves m'') : m.Evolves m'' := by
  intro hm
  obtain ⟨hm', hp⟩ := h hm
  obtain ⟨hm'', hp'⟩ := h' hm'
  exact ⟨hm'', hp.trans hp'⟩

theorem TopoOp.Scratch.sameBut {o : TopoOp} (h : o.Scratch b) (m : TopoArena) :
    m.SameBut b (o.exec m).2 := by
  cases o with
  | loadWord => exact .refl b m
  | loadParent b' f => exact .refl b m
  | loadEdge b' f => exact .refl b m
  | loadDepth b' f => exact .refl b m
  | storeWord w => exact h.elim
  | storeParent b' f v =>
    subst h
    exact m.sameBut_setBlock _ _
  | storeEdge b' f v =>
    subst h
    exact m.sameBut_setBlock _ _
  | storeDepth b' f v =>
    subst h
    exact m.sameBut_setBlock _ _

/-- The stores before the last one: the published block is not among them. -/
theorem wp_scratch {α : Type} {p : TopoProg α} (hp : p.Only (TopoOp.Scratch b))
    (hm₀ : m₀.Coherent) (hb : m₀.active ≠ b) (h : m₀.SameBut b m) :
    p.wp TopoOp.exec Eq TopoArena.Evolves (fun _ m' => m₀.SameBut b m') m := by
  refine Prog.wp_only (I := fun m => m₀.SameBut b m) ?_ hp h
  intro o m hS hm
  have hstep := hS.sameBut m
  refine ⟨fun hc => ⟨?_, ?_⟩, hm.trans hstep⟩
  · exact (hm.trans hstep).coherent hb hm₀
  · rw [hstep.published]

theorem parentAt_only (b cur : ℕ) : (parentAt maxFrames b cur).Only (TopoOp.Scratch b) := by
  unfold parentAt
  split_ifs
  · exact .op trivial
  · trivial

theorem copyFrames_only (src b : ℕ) (fs : List ℕ) :
    (copyFrames src b fs).Only (TopoOp.Scratch b) := by
  induction fs with
  | nil => trivial
  | cons f fs ih => exact ⟨trivial, fun _ => ⟨rfl, fun _ => ⟨trivial, fun _ => ⟨rfl, fun _ => ih⟩⟩⟩⟩

theorem cycleLoop_only (b child n cur : ℕ) :
    (cycleLoop maxFrames b child n cur).Only (TopoOp.Scratch b) := by
  induction n generalizing cur with
  | zero => trivial
  | succ n ih =>
    rw [cycleLoop]
    split_ifs
    · trivial
    · trivial
    · exact (parentAt_only b cur).bind fun cur' => ih cur'

theorem depthLoop_only (b n d cur : ℕ) :
    (depthLoop maxFrames b n d cur).Only (TopoOp.Scratch b) := by
  induction n generalizing d cur with
  | zero => trivial
  | succ n ih =>
    rw [depthLoop]
    split_ifs
    · trivial
    · exact (parentAt_only b cur).bind fun cur' => ih _ cur'

theorem depthFrames_only (b : ℕ) (fs : List ℕ) :
    (depthFrames maxFrames b fs).Only (TopoOp.Scratch b) := by
  induction fs with
  | nil => trivial
  | cons f fs ih =>
    refine ⟨trivial, fun cur => (depthLoop_only b maxFrames 0 cur).bind fun d => ?_⟩
    exact ⟨rfl, fun _ => ih⟩

/-- The last store publishes the block the others wrote. -/
theorem flip_evolves (hm₀ : m₀.Coherent) (hb : m₀.active ≠ b) (h : m₀.SameBut b m) :
    (storeTopo (packTopo (m₀.generation + 1) ((m₀.active + 1) % topoBlocks))).wp TopoOp.exec Eq
      TopoArena.Evolves (fun _ m' => m'.Coherent) m := by
  have hm := h.coherent hb hm₀
  rw [← h.generation, ← (h.block hb).1]
  refine Prog.wp_op_eq (fun _ => ⟨hm.flip, ?_⟩) hm.flip
  show m.published <+: m.flip.published
  rw [m.flip_published]
  exact List.prefix_append _ _

/-- **Step lemma.** No store of a call touches the published block, up to the one that
    publishes another. -/
theorem setParent_evolves (maxFrames : ℕ) (hm : m.Coherent) (child : FrameId) (parent edge : ℕ) :
    (setParent maxFrames child parent edge).wp TopoOp.exec Eq TopoArena.Evolves
      (fun _ m' => m'.Coherent) m := by
  have hne : m.active ≠ (m.active + 1) % topoBlocks := next_ne (unpackTopo m.word).2
  unfold setParent
  split_ifs
  · exact hm
  · exact hm
  refine Prog.wp_seq (Prog.wp_op_eq (.refl m) ?_)
  -- the copy with the new link
  refine Prog.wp_seq (Prog.wp_mono ?_ (wp_scratch (copyFrames_only _ _ _) hm hne (.refl _ m)))
  rintro - m1 h1
  refine Prog.wp_seq (Prog.wp_mono ?_ (wp_scratch (.op rfl) hm hne h1))
  rintro - m2 h2
  refine Prog.wp_seq (Prog.wp_mono ?_ (wp_scratch (.op rfl) hm hne h2))
  rintro - m3 h3
  refine Prog.wp_seq (Prog.wp_mono ?_ (wp_scratch
    ((parentAt_only _ _).bind fun cur => cycleLoop_only _ _ _ cur) hm hne h3))
  rintro res m4 h4
  split_ifs
  · exact h4.coherent hne hm
  · refine Prog.wp_seq (Prog.wp_mono ?_ (wp_scratch (depthFrames_only _ _) hm hne h4))
    rintro - m5 h5
    exact Prog.wp_seq (Prog.wp_mono (fun _ _ hm' => hm') (flip_evolves hm hne h5))

theorem coherent_stable : ∀ m m' : TopoArena, m.Coherent → m.Evolves m' → m'.Coherent :=
  fun _ _ hm h => (h hm).1

/-- Holders one after the other, whatever becomes of each. -/
theorem mutateAll_evolves (maxFrames : ℕ) (holders : List Holder) (hm : m.Coherent) :
    (mutateAll maxFrames holders).wp TopoOp.exec Eq TopoArena.Evolves
      (fun _ m' => m'.Coherent) m := by
  induction holders generalizing m with
  | nil => exact hm
  | cons h hs ih =>
    have hcall := setParent_evolves maxFrames hm h.child h.parent h.edge
    refine Prog.wp_seq (Prog.wp_mono (fun _ m' hm' => ih hm') ?_)
    unfold Holder.mutate
    cases h.dies with
    | none => exact Prog.wp_seq (Prog.wp_mono (fun _ _ hm' => hm') hcall)
    | some n => exact Prog.wp_cut coherent_stable hm hcall n

end Mutators

/-! ## Reading -/

/-- `out` is the entry of the frame `c` in the publication `n`, with its generation. -/
def TopoArena.Entry (m : TopoArena) (c n : ℕ) (out : ℕ × ℕ × ℕ × ℕ) : Prop :=
  ∃ blk, m.published[n]? = some blk ∧
    out = (blk.parent c, blk.depth c, blk.edgeOfChild c, n % 2 ^ 56)

/-- As long as `n` is the last publication, its block satisfies `P`. -/
structure TopoArena.Pinned (n : ℕ) (P : Block → Prop) (m : TopoArena) : Prop where
  coherent : m.Coherent
  lt : n < m.published.length
  holds : m.published.length = n + 1 → ∀ blk, m.published[n]? = some blk → P blk

section Readers

variable {m m' m₀ : TopoArena} {maxFrames c n : ℕ} {P P' : Block → Prop}

theorem TopoArena.Evolves.length_le (h : m.Evolves m') (hm : m.Coherent) :
    m.published.length ≤ m'.published.length := (h hm).2.length_le

theorem TopoArena.Coherent.block_eq (hm : m.Coherent) (hn : m.published.length = n + 1)
    {blk : Block} (hb : m.published[n]? = some blk) : m.block = blk := by
  have hlast := hm.last
  rw [List.getLast?_eq_getElem?, hn, Nat.add_sub_cancel, hb] at hlast
  exact (Option.some_inj.mp hlast).symm

theorem TopoArena.Pinned.evolves (h : m.Pinned n P) (he : m.Evolves m') : m'.Pinned n P := by
  obtain ⟨hm', hp⟩ := he h.coherent
  have hle := hp.length_le
  have hlt := h.lt
  refine ⟨hm', by omega, fun hn blk hb => ?_⟩
  have heq : m.published = m'.published := hp.eq_of_length (by omega)
  rw [← heq] at hn hb
  exact h.holds hn blk hb

theorem TopoArena.Pinned.and (h : m.Pinned n P) (h' : m.Pinned n P') :
    m.Pinned n fun blk => P blk ∧ P' blk :=
  ⟨h.coherent, h.lt, fun hn blk hb => ⟨h.holds hn blk hb, h'.holds hn blk hb⟩⟩

/-- A load from the block that was active when the word was loaded. -/
theorem TopoArena.pinned_load (hm : m.Coherent) (hlt : n < m.published.length) (v : Block → ℕ) :
    m.Pinned n fun blk => v (m.blocks (n % topoBlocks)) = v blk := by
  refine ⟨hm, hlt, fun hn blk hb => ?_⟩
  rw [← hm.block_eq hn hb, TopoArena.block, (hm.unpack hn).2]

theorem wp_loadTopo {R : TopoArena → TopoArena → Prop} {Q : ℕ → TopoArena → Prop} :
    loadTopo.wp TopoOp.exec R Eq Q m ↔ ∀ m', R m m' → Q m'.word m' :=
  forall_congr' fun _ => imp_congr_right fun _ => and_iff_right rfl

theorem wp_loadParent {R : TopoArena → TopoArena → Prop} {Q : ℕ → TopoArena → Prop} {b f : ℕ} :
    (loadParent b f).wp TopoOp.exec R Eq Q m ↔ ∀ m', R m m' → Q ((m'.blocks b).parent f) m' :=
  forall_congr' fun _ => imp_congr_right fun _ => and_iff_right rfl

theorem wp_loadDepth {R : TopoArena → TopoArena → Prop} {Q : ℕ → TopoArena → Prop} {b f : ℕ} :
    (loadDepth b f).wp TopoOp.exec R Eq Q m ↔ ∀ m', R m m' → Q ((m'.blocks b).depth f) m' :=
  forall_congr' fun _ => imp_congr_right fun _ => and_iff_right rfl

theorem wp_loadEdge {R : TopoArena → TopoArena → Prop} {Q : ℕ → TopoArena → Prop} {b f : ℕ} :
    (loadEdge b f).wp TopoOp.exec R Eq Q m ↔
      ∀ m', R m m' → Q ((m'.blocks b).edgeOfChild f) m' :=
  forall_congr' fun _ => imp_congr_right fun _ => and_iff_right rfl

/-- What a read that started in `m₀` returned: unless the generation may have come
    round, the entry of one publication at least as new as the one it started with. -/
def ReadOutcome (c : ℕ) (m₀ : TopoArena) : Option (ℕ × ℕ × ℕ × ℕ) → TopoArena → Prop
  | none, _ => True
  | some out, m => m₀.Evolves m ∧ (m.published.length < m₀.published.length + 2 ^ 56 →
      ∃ n, m₀.published.length ≤ n + 1 ∧ n < m.published.length ∧ m.Entry c n out)

theorem TopoArena.Entry.evolves {out : ℕ × ℕ × ℕ × ℕ} (h : m.Entry c n out)
    (hp : m.published <+: m'.published) : m'.Entry c n out := by
  obtain ⟨blk, hb, hout⟩ := h
  obtain ⟨hlt, rfl⟩ := List.getElem?_eq_some_iff.mp hb
  exact ⟨_, List.prefix_iff_getElem?.mp hp n hlt, hout⟩

/-- Two equal words, fewer than `2 ^ 56` publications apart, are the same publication. -/
theorem TopoArena.Coherent.word_inj (hm : m.Coherent) (hm' : m'.Coherent)
    (hw : m'.word = m.word) (hle : m.published.length ≤ m'.published.length)
    (hlt : m'.published.length < m.published.length + 2 ^ 56) :
    m'.published.length = m.published.length := by
  obtain ⟨n, hn, -⟩ := hm.word
  obtain ⟨n', hn', -⟩ := hm'.word
  have hgen : n' % 2 ^ 56 = n % 2 ^ 56 := by
    rw [← (hm.unpack hn).1, ← (hm'.unpack hn').1, TopoArena.generation, hw, TopoArena.generation]
  omega

/-- One attempt, and the ones after it. -/
theorem readFrameLoop_race (hm : m.Coherent) (c tries : ℕ) :
    (readFrameLoop c tries).wp TopoOp.exec TopoArena.Evolves Eq (ReadOutcome c m) m := by
  induction tries generalizing m with
  | zero => trivial
  | succ tries ih =>
    rw [readFrameLoop]
    refine Prog.wp_seq (wp_loadTopo.mpr fun m1 he1 => ?_)
    have hm1 := (he1 hm).1
    obtain ⟨n, hn, -⟩ := hm1.word
    obtain ⟨hgen, hactive⟩ := hm1.unpack hn
    have hblk : (unpackTopo m1.word).2 % topoBlocks = n % topoBlocks := hactive
    have hg : (unpackTopo m1.word).1 = n % 2 ^ 56 := hgen
    simp only [hblk, hg]
    -- the three loads read the publication `n`, unless another one came
    refine Prog.wp_seq (wp_loadParent.mpr fun m2 he2 => ?_)
    have hp2 := TopoArena.pinned_load (he2 hm1).1 (n := n)
      (by have := he2.length_le hm1; omega) (·.parent c)
    generalize ((m2.blocks (n % topoBlocks)).parent c) = parent at hp2 ⊢
    refine Prog.wp_seq (wp_loadDepth.mpr fun m3 he3 => ?_)
    have hp3 := hp2.evolves he3
    have hd3 := TopoArena.pinned_load hp3.coherent hp3.lt (·.depth c)
    generalize ((m3.blocks (n % topoBlocks)).depth c) = depth at hd3 ⊢
    refine Prog.wp_seq (wp_loadEdge.mpr fun m4 he4 => ?_)
    have hpd4 := (hp3.and hd3).evolves he4
    have he4' := TopoArena.pinned_load hpd4.coherent hpd4.lt (·.edgeOfChild c)
    generalize ((m4.blocks (n % topoBlocks)).edgeOfChild c) = edge at he4' ⊢
    refine Prog.wp_seq (wp_loadTopo.mpr fun m5 he5 => ?_)
    have hall := (hpd4.and he4').evolves he5
    have he25 := (he2.trans he3).trans (he4.trans he5)
    split_ifs with hw
    · refine ⟨he1.trans he25, fun hfew => ?_⟩
      have hlen := hm1.word_inj hall.coherent hw (he25.length_le hm1)
        (by have := he1.length_le hm; omega)
      have hlt : n < m5.published.length := by omega
      have hget := List.getElem?_eq_getElem hlt
      obtain ⟨⟨hpe, hde⟩, hee⟩ := hall.holds (by omega) _ hget
      refine ⟨n, by have := he1.length_le hm; omega, hlt, _, hget, ?_⟩
      rw [← hpe, ← hde, ← hee]
    · refine Prog.wp_mono ?_ (ih hall.coherent)
      rintro (- | out) m6 hout
      · trivial
      · obtain ⟨he6, hres⟩ := hout
        have hle := (he1.trans he25).length_le hm
        refine ⟨(he1.trans he25).trans he6, fun hfew => ?_⟩
        obtain ⟨k, hk, hlt, hentry⟩ := hres (by omega)
        exact ⟨k, by omega, hlt, hentry⟩

/-- **Step lemma.** `read_frame`, while the mutators run. -/
theorem readFrame_race (hm : m.Coherent) (maxFrames : ℕ) (child : FrameId) :
    (readFrame maxFrames child).wp TopoOp.exec TopoArena.Evolves Eq (ReadOutcome child m) m := by
  unfold readFrame
  split_ifs
  · trivial
  · exact readFrameLoop_race hm child topoRetryLimit

/-- **Run lemma.** What a reading program establishes holds at the end of every
    interleaving with the mutators. -/
theorem mutators_par {α : Type} {p : TopoProg α} {Q : α → TopoArena → Prop}
    (hm₀ : m₀.Coherent) (hQ : ∀ a m m', Q a m → m.Evolves m' → Q a m')
    (hp : p.wp TopoOp.exec TopoArena.Evolves Eq Q m₀) {holders : List Holder} {a : α}
    {q : TopoProg Unit}
    (h : Par TopoOp.exec (m₀, p, mutateAll maxFrames holders) (m, .ret a, q)) : Q a m := by
  have hw := mutateAll_evolves maxFrames holders hm₀
  have hreads : ∀ m m' : TopoArena, m = m' → m = m' := fun _ _ h => h
  have hwrites : ∀ m m' : TopoArena, m.Evolves m' → m.Evolves m' := fun _ _ h => h
  have htrans : ∀ m m' m'' : TopoArena, m.Evolves m' → m'.Evolves m'' → m.Evolves m'' :=
    fun _ _ _ h h' => h.trans h'
  have hcoherent : ∀ (_ : Unit) (m m' : TopoArena), m.Coherent → m = m' → m'.Coherent :=
    fun _ _ _ h he => he ▸ h
  exact (wp_par hreads hwrites htrans (fun _ _ _ h h' => h.trans h') .refl (fun _ => rfl) hQ
    hcoherent hp hw h).1

end Readers

/-! ## The generation comes round -/

section ComesRound

variable {m m₀ : TopoArena} {n : ℕ}

/-- The holder attaches frame `1` to frame `2`, again and again. -/
def reattach : Holder := ⟨1, 2, 5, none⟩

/-- The arena after `n` of its calls on three unattached frames. -/
structure Reattached (n : ℕ) (m : TopoArena) : Prop where
  coherent : m.Coherent
  forest : m.block.Forest 3
  count : m.published.length = n + 1
  free : m.block.parent 2 = 0
  first : m.published[0]? = some Block.empty
  later : ∀ k blk, 0 < k → m.published[k]? = some blk → blk.parent 1 = 2

theorem reattached_init : Reattached 0 (TopoRun.init fun _ => Block.empty).arena where
  coherent := (TopoRun.ok_init 3 _).coherent
  forest := (TopoRun.ok_init 3 _).forest
  count := rfl
  free := by
    rw [TopoRun.init_block]
    rfl
  first := rfl
  later := fun k blk hk hget => by
    have hlt := (List.getElem?_eq_some_iff.mp hget).1
    have hlen : (TopoRun.init fun _ => Block.empty).arena.published.length = 1 := rfl
    omega

/-- One more call. -/
theorem Reattached.mutate (h : Reattached n m) : ∃ m',
    (reattach.mutate 3).run TopoOp.exec m = some ((), m') ∧ Reattached (n + 1) m' ∧
      m'.block.depth 1 = 1 ∧ m'.block.edgeOfChild 1 = 5 := by
  obtain ⟨res, m', hrun, hout⟩ := setParent_run h.forest 1 2 5
  have hclosed : ¬ m.block.Closes 1 2 := by
    rintro ⟨k, hk⟩
    cases k with
    | zero => exact absurd hk (show (2 : ℕ) ≠ ((1 : FrameId) : ℕ) by decide)
    | succ k =>
      rw [Function.iterate_succ_apply, h.free, iterate_root h.forest.root] at hk
      exact absurd hk (by decide)
  match res, hout with
  | .error (.unknownFrame f), ⟨_, hf, he⟩ =>
    rcases he with rfl | rfl
    · exact absurd hf (by decide)
    · exact absurd hf (by decide)
  | .error (.wouldCreateCycle c), ⟨_, _, hc⟩ => exact absurd hc hclosed
  | .ok (), hok =>
    obtain ⟨hcoherent, hlen, -, hattached, hforest⟩ := hok.of_ok h.coherent
    obtain ⟨-, -, -, m'', hsame, hflip, -, -⟩ := hok
    have hpub : m'.published = m.published ++ [m'.block] := by
      rw [hflip, m''.flip_published, m''.flip_block, hsame.published]
    have hchild : m'.block.parent 1 = 2 := hattached.parent 1 (by decide)
    have hfree : m'.block.parent 2 = 0 := (hattached.parent 2 (by decide)).trans h.free
    refine ⟨m', by rw [Holder.mutate]; exact Prog.run_seq hrun, ⟨hcoherent, hforest, ?_, hfree, ?_,
      fun k blk hk hget => ?_⟩, ?_, hattached.edge 1 (by decide)⟩
    · rw [hlen, h.count]
    · rw [hpub, List.getElem?_append_left (by rw [h.count]; omega), h.first]
    · rw [hpub] at hget
      rcases Nat.lt_or_ge k m.published.length with hlt | hge
      · rw [List.getElem?_append_left hlt] at hget
        exact h.later k blk hk hget
      · obtain rfl : k = m.published.length := by
          have hlt := (List.getElem?_eq_some_iff.mp hget).1
          rw [List.length_append, List.length_singleton] at hlt
          omega
        rw [List.getElem?_concat_length] at hget
        rw [← Option.some_inj.mp hget, hchild]
    · have htwo := (hforest.rooted 2 (by decide)).hops_succ (by decide)
      rw [hforest.depth 1 (by decide) (by decide), hchild, htwo, hfree, hops_self]
      rfl

theorem Reattached.mutateAll (h : Reattached n m) (k : ℕ) : ∃ m',
    (mutateAll 3 (List.replicate (k + 1) reattach)).run TopoOp.exec m = some ((), m') ∧
      Reattached (n + (k + 1)) m' ∧ m'.block.depth 1 = 1 ∧ m'.block.edgeOfChild 1 = 5 := by
  induction k generalizing n m with
  | zero =>
    obtain ⟨m', hrun, hm', hblock⟩ := h.mutate
    exact ⟨m', Prog.run_seq hrun, hm', hblock⟩
  | succ k ih =>
    obtain ⟨m1, hrun, hm1, -⟩ := h.mutate
    obtain ⟨m', hrun', hm', hblock⟩ := ih hm1
    refine ⟨m', (Prog.run_seq hrun).trans hrun', ?_, hblock⟩
    have hcount : n + 1 + (k + 1) = n + (k + 1 + 1) := by omega
    exact hcount ▸ hm'

/-- A reader that sleeps through `2 ^ 56` publications after its first load from the
    block: the word is the one it saw, and the entry is no publication's. -/
theorem torn_read : ∃ (holders : List Holder) (m : TopoArena) (out : ℕ × ℕ × ℕ × ℕ),
    Par TopoOp.exec ((TopoRun.init fun _ => Block.empty).arena, readFrame 3 1,
      mutateAll 3 holders) (m, .ret (some out), .ret ()) ∧ ∀ n, ¬ m.Entry 1 n out := by
  obtain ⟨m₀, hm₀⟩ : ∃ m₀, m₀ = (TopoRun.init fun _ => Block.empty).arena := ⟨_, rfl⟩
  have h₀ : Reattached 0 m₀ := hm₀ ▸ reattached_init
  obtain ⟨m, hrun, hm, hdepth, hedge⟩ := h₀.mutateAll (2 ^ 56 - 1)
  have hlen : m.published.length = 2 ^ 56 + 1 := hm.count
  obtain ⟨hgen, hactive⟩ := hm.coherent.unpack hlen
  have hactive0 : m.active = 0 := hactive
  have hblock : m.block = m.blocks 0 := by rw [TopoArena.block, hactive0]
  have hword : m.word = packTopo 0 0 := by
    obtain ⟨n, hn, hw⟩ := hm.coherent.word
    obtain rfl : n = 2 ^ 56 := by omega
    rw [hw]
    decide
  -- the reader after its loads of the word and of the parent
  obtain ⟨rest, hrest⟩ : ∃ rest : TopoProg (Option (ℕ × ℕ × ℕ × ℕ)), rest = (do
    let depth ← loadDepth 0 1
    let edge ← loadEdge 0 1
    let w2 ← loadTopo
    if w2 = packTopo 0 0 then return some (0, depth, edge, 0) else readFrameLoop 1 63) :=
    ⟨_, rfl⟩
  have hstart : Par TopoOp.exec (m₀, readFrame 3 1,
      mutateAll 3 (List.replicate (2 ^ 56 - 1 + 1) reattach))
      (m₀, rest, mutateAll 3 (List.replicate (2 ^ 56 - 1 + 1) reattach)) := by
    have hread : readFrame 3 1 = Prog.call TopoOp.loadWord fun w1 =>
        Prog.call (TopoOp.loadParent ((unpackTopo w1).2 % topoBlocks) 1) fun parent =>
          loadDepth ((unpackTopo w1).2 % topoBlocks) 1 >>= fun depth =>
            loadEdge ((unpackTopo w1).2 % topoBlocks) 1 >>= fun edge =>
              loadTopo >>= fun w2 =>
                if w2 = w1 then pure (some (parent, depth, edge, (unpackTopo w1).1))
                else readFrameLoop 1 63 := rfl
    rw [hread, hrest, hm₀]
    exact .head (.left _ _ _ _) (.head (.left _ _ _ _) .refl)
  have hend : rest.run TopoOp.exec m = some (some (0, 1, 5, 0), m) := by
    rw [hrest]
    show (if m.word = packTopo 0 0 then
        pure (some (0, (m.blocks 0).depth 1, (m.blocks 0).edgeOfChild 1, 0))
      else readFrameLoop 1 63 : TopoProg _).run TopoOp.exec m = _
    rw [if_pos hword, ← hblock, hdepth, hedge]
    rfl
  refine ⟨List.replicate (2 ^ 56 - 1 + 1) reattach, m, (0, 1, 5, 0), ?_, ?_⟩
  · rw [← hm₀]
    exact (hstart.trans (par_right hrun)).trans (par_left hend)
  · rintro n ⟨blk, hget, hout⟩
    obtain ⟨hp, hd, -, -⟩ : 0 = blk.parent 1 ∧ 1 = blk.depth 1 ∧ 5 = blk.edgeOfChild 1 ∧
      0 = n % 2 ^ 56 := by simpa using hout
    rcases Nat.eq_zero_or_pos n with rfl | hn
    · rw [hm.first] at hget
      obtain rfl := Option.some_inj.mp hget
      exact absurd hd (by decide)
    · rw [hm.later n blk hn hget] at hp
      exact absurd hp (by decide)

end ComesRound

end TfTree
