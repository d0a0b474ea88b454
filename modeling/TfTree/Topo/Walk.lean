import TfTree.Plan.FoldArray
import TfTree.Topo.Snapshot

/-!
# Compiling against a topology region

`compile` (`tf_tree_core/src/plan.rs`) as a program of topology accesses: its
`'walk` loop with the retries, and the edge buffers of `MAX_PATH_EDGES` entries.
The walk itself is a program of `read!`s; `readVia` runs it against the topology.

A loop has fuel, and does not return when that runs out; an index out of range is a
panic. Both are `Prog.abort`.

Results:
* `compile_terminates`: on a topology nobody mutates, whatever it holds, the program
  returns what `compile` returns.
* `compile_snapshot`: while the topology is mutated, a compiled plan is the plan of
  one publication.
-/

namespace TfTree

open Conc

variable {P : Type}

/-! ## Model of the walk -/

/-- An edge buffer of `compile` and its length. -/
structure EdgeBuf where
  edges : List ℕ
  n : ℕ
  length_edges : edges.length = maxPathEdges
  n_le : n ≤ maxPathEdges

/-- `[0u32; MAX_PATH_EDGES]`. -/
def EdgeBuf.empty : EdgeBuf :=
  ⟨List.replicate maxPathEdges 0, 0, List.length_replicate, Nat.zero_le _⟩

/-- `&edges[..n]`. -/
def EdgeBuf.slice (buf : EdgeBuf) : List ℕ := buf.edges.take buf.n

/-- A program of `read!`s. -/
abbrev WalkProg := Prog FrameId fun _ => Cursor

/-- A program of `read!`s that may fail. -/
abbrev WalkM := ExceptT LookupError WalkProg

/-- The `read!` macro. -/
def readCursor (f : FrameId) : WalkM Cursor := (Prog.op f : WalkProg Cursor)

/-- `buf[n] = edge; n += 1`. -/
def EdgeBuf.push (buf : EdgeBuf) (edge : ℕ) : WalkProg EdgeBuf :=
  if h : buf.n < maxPathEdges then
    pure {
      edges := buf.edges.set buf.n edge
      n := buf.n + 1
      length_edges := List.length_set.trans buf.length_edges
      n_le := h }
  else Prog.abort

/-- The `push_edge!` macro; `other` is the length of the other buffer. -/
def pushEdge (buf : EdgeBuf) (other edge : ℕ) (frame : FrameId) : WalkM EdgeBuf :=
  if buf.n + other = maxPathEdges then throw (.treeTooDeep (maxPathEdges + 1))
  else if edge = 0 then throw (.missingEdge frame)
  else buf.push edge

section WalkProgs

variable (target source : FrameId)

/-- `frame_or_disconnect(..)?`. -/
def parentOf (c : Cursor) : WalkM FrameId :=
  ExceptT.mk (pure (frameOrDisconnect target source c.parent c.frame))

/-- The `while da > db` loop (lines 1813–1820), and its mirror image. -/
def climbLoop (goal other : ℕ) : ℕ → EdgeBuf → Cursor → WalkM (EdgeBuf × Cursor)
  | 0, _, _ => (Prog.abort : WalkProg _)
  | fuel + 1, buf, c =>
    if c.depth > goal then do
      let buf' ← pushEdge buf other c.edge c.frame
      let f ← parentOf target source c
      let c' ← readCursor f
      climbLoop goal other fuel buf' c'
    else return (buf, c)

/-- The `while a != b` loop (lines 1830–1848). -/
def meetLoop : ℕ → EdgeBuf → EdgeBuf → Cursor → Cursor → WalkM (EdgeBuf × EdgeBuf)
  | 0, _, _, _, _ => (Prog.abort : WalkProg _)
  | fuel + 1, t, s, a, b =>
    if a.frame = b.frame then return (t, s)
    else if a.parent = 0 ∨ b.parent = 0 then throw (.disconnected target source a.frame)
    else do
      let t' ← pushEdge t s.n a.edge a.frame
      let s' ← pushEdge s t'.n b.edge b.frame
      let fa ← parentOf target source a
      let fb ← parentOf target source b
      let a' ← readCursor fa
      let b' ← readCursor fb
      meetLoop fuel t' s' a' b'

/-- The walk of `compile` (lines 1783–1848). -/
def walkProg (fuel : ℕ) : WalkM (EdgeBuf × EdgeBuf) := do
  let a ← readCursor target
  let b ← readCursor source
  let (t, a') ← climbLoop target source b.depth 0 fuel .empty a
  let (s, b') ← climbLoop target source a'.depth t.n fuel .empty b
  meetLoop target source fuel t s a' b'

end WalkProgs

/-! ## Model of the `'walk` loop -/

/-- How a walk ends early: `continue 'walk`, or an error. -/
inductive WalkExit where
  | retry
  | fail (e : LookupError)

/-- The `read!`s of a walk that started at the generation `startGen`
    (lines 1771–1781). -/
def readVia (maxFrames startGen : ℕ) {α : Type} : WalkProg α → TopoProg (Except WalkExit α)
  | .ret a => pure (.ok a)
  | .call f k => do
    match ← readFrame maxFrames f with
    | none => return .error (.fail (.frameOutOfRange f))
    | some (parent, depth, edge, gen) =>
      if gen ≠ startGen then return .error .retry
      else readVia maxFrames startGen (k ⟨f, parent, depth, edge⟩)
  | .abort => .abort

section CompileProg

variable [Mul P] [Inv P] [One P] (edgeMeta : EdgeId → Option (EdgeMeta P)) (maxFrames fuel : ℕ)
  (target source : FrameId)

/-- The `'walk` loop (lines 1765–1859), with the attempts left. -/
def compileLoop : ℕ → TopoProg (Except LookupError (Plan P))
  | 0 => .abort
  | n + 1 => do
    let startGen ← loadGeneration
    match ← readVia maxFrames startGen (walkProg target source fuel).run with
    | .error .retry => compileLoop n
    | .error (.fail e) => return .error e
    | .ok (.error e) => return .error e
    | .ok (.ok (t, s)) =>
      let gen ← loadGeneration
      if gen ≠ startGen then compileLoop n
      else
        match foldArray edgeMeta startGen t.slice s.slice with
        | none => .abort
        | some res => return res

/-- `compile` (lines 1754–1860). -/
def compileProg (attempts : ℕ) : TopoProg (Except LookupError (Plan P)) :=
  if target = source then do
    let gen ← loadGeneration
    return .ok (Plan.identity gen)
  else compileLoop edgeMeta maxFrames fuel target source attempts

end CompileProg

/-! ## The walk against fixed answers -/

section WalkRun

variable {topo : TopologyView} {target source : FrameId} {buf t s : EdgeBuf}
  {goal other budget fuel edge : ℕ} {a b c : Cursor}

theorem EdgeBuf.length_slice (buf : EdgeBuf) : buf.slice.length = buf.n := by
  rw [EdgeBuf.slice, List.length_take, buf.length_edges, min_eq_left buf.n_le]

theorem answerE_readCursor (f : FrameId) :
    Prog.answerE (read topo) (readCursor f) = some (read topo f) := by
  have hrun : (readCursor f).run = Prog.call f fun c => Prog.ret (.ok c) := rfl
  rw [Prog.answerE, hrun, Prog.answer]
  cases read topo f <;> rfl

theorem answerE_parentOf (c : Cursor) :
    Prog.answerE (read topo) (parentOf target source c) =
      some (frameOrDisconnect target source c.parent c.frame) := rfl

/-- `push_edge!` at the shared bound. -/
theorem answerE_pushEdge_full (h : buf.n + other = maxPathEdges) (f : FrameId) :
    Prog.answerE (read topo) (pushEdge buf other edge f) =
      some (.error (.treeTooDeep (maxPathEdges + 1))) := by
  rw [pushEdge, if_pos h]
  rfl

theorem answerE_pushEdge_missing (h : buf.n + other ≠ maxPathEdges) (f : FrameId) :
    Prog.answerE (read topo) (pushEdge buf other 0 f) = some (.error (.missingEdge f)) := by
  rw [pushEdge, if_neg h, if_pos rfl]
  rfl

/-- `push_edge!` below it: the buffer has room. -/
theorem answerE_pushEdge (topo : TopologyView) (h : buf.n + other < maxPathEdges) (he : edge ≠ 0)
    (f : FrameId) :
    ∃ buf' : EdgeBuf, Prog.answerE (read topo) (pushEdge buf other edge f) = some (.ok buf') ∧
      buf'.slice = buf.slice ++ [edge] ∧ buf'.n = buf.n + 1 := by
  have hlt : buf.n < maxPathEdges := by omega
  rw [pushEdge, if_neg (by omega), if_neg he, EdgeBuf.push, dif_pos hlt]
  refine ⟨_, rfl, ?_, rfl⟩
  have hget : (buf.edges.set buf.n edge)[buf.n]? = some edge := by
    rw [List.getElem?_set_self (by rw [buf.length_edges]; exact hlt)]
  show (buf.edges.set buf.n edge).take (buf.n + 1) = buf.slice ++ [edge]
  rw [List.take_add_one, hget, List.take_set,
    List.set_eq_of_length_le (by rw [← EdgeBuf.slice, buf.length_slice])]
  rfl

/-- The walk of one side: it ends within the shared bound, and the buffer holds what
    `climb` records. -/
theorem climbLoop_agrees (hn : buf.n + other + budget = maxPathEdges) (hfuel : budget < fuel)
    (c : Cursor) :
    Prog.Agrees (fun out ref => out.1.slice = buf.slice ++ ref.1 ∧ out.2 = ref.2.1 ∧
        out.1.n + other + ref.2.2 = maxPathEdges)
      (Prog.answerE (read topo) (climbLoop target source goal other fuel buf c))
      (climb topo target source goal budget c) := by
  -- the loop ends where it is
  have hstay : Prog.Agrees (fun out ref => out.1.slice = buf.slice ++ ref.1 ∧ out.2 = ref.2.1 ∧
      out.1.n + other + ref.2.2 = maxPathEdges)
      (Prog.answerE (read topo) (pure (buf, c))) (.ok ([], c, budget)) :=
    ⟨(List.append_nil _).symm, rfl, hn⟩
  induction budget generalizing fuel buf c with
  | zero =>
    cases fuel with
    | zero => omega
    | succ fuel =>
      rw [climb, climbLoop]
      by_cases hd : c.depth > goal
      · rw [if_pos hd, if_pos hd, Prog.answerE_error (answerE_pushEdge_full hn c.frame)]
        rfl
      · rw [if_neg hd, if_neg hd]
        exact hstay
  | succ budget ih =>
    cases fuel with
    | zero => omega
    | succ fuel =>
      rw [climb, climbLoop]
      by_cases hd : c.depth > goal
      · rw [if_pos hd, if_pos hd]
        by_cases he : c.edge = 0
        · rw [if_pos he, he,
            Prog.answerE_error (answerE_pushEdge_missing (by omega) c.frame)]
          rfl
        rw [if_neg he]
        obtain ⟨buf1, hpush, hslice, hn1⟩ :=
          answerE_pushEdge topo (by omega : buf.n + other < maxPathEdges) he c.frame
        rw [Prog.answerE_seq hpush]
        refine (Prog.Agrees.of_eq (answerE_parentOf c)).bind ?_
        rintro f - rfl
        refine (Prog.Agrees.of_eq (answerE_readCursor f)).bind ?_
        rintro c' - rfl
        refine (ih (by omega) (by omega) c' ?_).map ?_
        · refine ⟨(List.append_nil _).symm, rfl, ?_⟩
          show buf1.n + other + budget = maxPathEdges
          omega
        · rintro out ⟨es, c'', left⟩ ⟨hes, hout, hleft⟩
          refine ⟨?_, hout, hleft⟩
          rw [hes, hslice, List.append_assoc]
          rfl
      · rw [if_neg hd, if_neg hd]
        exact hstay

/-- The lockstep walk, with the bound shared by both buffers. -/
theorem meetLoop_agrees (hn : t.n + s.n + budget = maxPathEdges) (hfuel : budget < fuel)
    (a b : Cursor) :
    Prog.Agrees (fun out ref => out.1.slice = t.slice ++ ref.1 ∧ out.2.slice = s.slice ++ ref.2)
      (Prog.answerE (read topo) (meetLoop target source fuel t s a b))
      (meet topo target source budget a b) := by
  induction budget using Nat.strong_induction_on generalizing fuel t s a b with
  | _ budget ih =>
    cases fuel with
    | zero => omega
    | succ fuel =>
      rw [meet.eq_def, meetLoop]
      by_cases heq : a.frame = b.frame
      · rw [if_pos heq, if_pos heq]
        exact ⟨(List.append_nil _).symm, (List.append_nil _).symm⟩
      rw [if_neg heq, if_neg heq]
      by_cases hroot : a.parent = 0 ∨ b.parent = 0
      · rw [if_pos hroot, if_pos hroot]
        rfl
      rw [if_neg hroot, if_neg hroot]
      rcases budget with _ | _ | budget
      · rw [Prog.answerE_error (answerE_pushEdge_full hn a.frame)]
        rfl
      · dsimp only
        by_cases hea : a.edge = 0
        · rw [if_pos hea, hea, Prog.answerE_error (answerE_pushEdge_missing (by omega) a.frame)]
          rfl
        obtain ⟨t', hpush, -, hn'⟩ :=
          answerE_pushEdge topo (by omega : t.n + s.n < maxPathEdges) hea a.frame
        rw [if_neg hea, Prog.answerE_seq hpush,
          Prog.answerE_error (answerE_pushEdge_full (by omega) b.frame)]
        rfl
      · dsimp only
        by_cases hea : a.edge = 0
        · rw [if_pos hea, hea, Prog.answerE_error (answerE_pushEdge_missing (by omega) a.frame)]
          rfl
        obtain ⟨t', hpusht, hslicet, hnt⟩ :=
          answerE_pushEdge topo (by omega : t.n + s.n < maxPathEdges) hea a.frame
        rw [if_neg hea, Prog.answerE_seq hpusht]
        by_cases heb : b.edge = 0
        · rw [if_pos heb, heb, Prog.answerE_error (answerE_pushEdge_missing (by omega) b.frame)]
          rfl
        obtain ⟨s', hpushs, hslices, hns⟩ :=
          answerE_pushEdge topo (by omega : s.n + t'.n < maxPathEdges) heb b.frame
        rw [if_neg heb, Prog.answerE_seq hpushs]
        refine (Prog.Agrees.of_eq (answerE_parentOf a)).bind ?_
        rintro fa - rfl
        refine (Prog.Agrees.of_eq (answerE_parentOf b)).bind ?_
        rintro fb - rfl
        refine (Prog.Agrees.of_eq (answerE_readCursor fa)).bind ?_
        rintro a' - rfl
        refine (Prog.Agrees.of_eq (answerE_readCursor fb)).bind ?_
        rintro b' - rfl
        have hbudget : t'.n + s'.n + budget = maxPathEdges := by omega
        refine (ih budget (by omega) hbudget (by omega) a' b').map ?_
        rintro out ⟨ts, ss⟩ ⟨hts, hss⟩
        constructor
        · rw [hts, hslicet, List.append_assoc]
          rfl
        · rw [hss, hslices, List.append_assoc]
          rfl

/-- The walk: the two buffers hold the edges that `walk` records. -/
theorem walkProg_agrees (topo : TopologyView) (target source : FrameId)
    (hfuel : maxPathEdges < fuel) :
    Prog.Agrees (fun out ref => out.1.slice = ref.1 ∧ out.2.slice = ref.2)
      (Prog.answerE (read topo) (walkProg target source fuel)) (walk topo target source) := by
  unfold walkProg walk
  refine (Prog.Agrees.of_eq (answerE_readCursor target)).bind ?_
  rintro a - rfl
  refine (Prog.Agrees.of_eq (answerE_readCursor source)).bind ?_
  rintro b - rfl
  refine (climbLoop_agrees (by rfl) hfuel a).bind ?_
  rintro ⟨t, a'⟩ ⟨ts, c, left⟩ ⟨hts, ha, hleft⟩
  dsimp only at hts ha hleft ⊢
  subst ha
  refine (climbLoop_agrees (by simpa [EdgeBuf.empty] using hleft) (by omega) b).bind ?_
  rintro ⟨s, b'⟩ ⟨ss, c, left'⟩ ⟨hss, hb, hleft'⟩
  dsimp only at hss hb hleft' ⊢
  subst hb
  refine (meetLoop_agrees (by omega) (by omega) a' b').map ?_
  rintro out ⟨ts', ss'⟩ ⟨hts', hss'⟩
  constructor
  · rw [hts', hts]
    rfl
  · rw [hss', hss]
    rfl

end WalkRun

/-! ## A topology nobody mutates -/

section Still

variable {maxFrames fuel : ℕ} {target source : FrameId}

theorem TopoArena.view_readFrame (maxFrames : ℕ) (f : FrameId) (m : TopoArena) :
    (m.view maxFrames).readFrame f = if (f : ℕ) ≥ maxFrames then none
      else some (m.block.parent f, m.block.depth f, m.block.edgeOfChild f) := by
  rw [TopologyView.readFrame, TopoArena.view_block]
  rfl

/-- `read_frame` returns on its first attempt. -/
theorem readFrame_run (maxFrames : ℕ) (f : FrameId) (m : TopoArena) :
    (readFrame maxFrames f).run TopoOp.exec m =
      some (((m.view maxFrames).readFrame f).map fun (parent, depth, edge) =>
        (parent, depth, edge, m.generation), m) := by
  rw [readFrame, TopoArena.view_readFrame]
  by_cases hf : (f : ℕ) ≥ maxFrames
  · rw [if_pos hf, if_pos hf]
    rfl
  · rw [if_neg hf, if_neg hf]
    show (if m.word = m.word then
        pure (some (m.block.parent f, m.block.depth f, m.block.edgeOfChild f, m.generation))
      else readFrameLoop f 63 : TopoProg _).run TopoOp.exec m = _
    rw [if_pos rfl]
    rfl

/-- A walk reads the one published block. -/
theorem readVia_run {α : Type} (maxFrames : ℕ) (p : WalkProg α) (m : TopoArena) :
    (readVia maxFrames m.generation p).run TopoOp.exec m =
      (p.answer (read (m.view maxFrames))).map fun
        | .ok a => (.ok a, m)
        | .error e => (.error (.fail e), m) := by
  induction p with
  | ret a => rfl
  | abort => rfl
  | call f k ih =>
    rw [readVia, Prog.run_seq (readFrame_run maxFrames f m), Prog.answer, read]
    cases (m.view maxFrames).readFrame f with
    | none => rfl
    | some r =>
      obtain ⟨parent, depth, edge⟩ := r
      show (if m.generation ≠ m.generation then pure (Except.error WalkExit.retry)
        else readVia maxFrames m.generation (k ⟨f, parent, depth, edge⟩) :
          TopoProg (Except WalkExit α)).run TopoOp.exec m = _
      rw [if_neg (not_not.mpr rfl)]
      exact ih _

variable [Mul P] [Inv P] [One P] {edgeMeta : EdgeId → Option (EdgeMeta P)}

/-- **Main theorem.** On a topology nobody mutates, whatever its words are, the program
    returns: its loops end within `MAX_PATH_EDGES + 1` iterations, no index into an
    edge buffer or into the step array is out of range, and the result is `compile`'s. -/
theorem compile_terminates (edgeMeta : EdgeId → Option (EdgeMeta P)) (maxFrames : ℕ)
    (target source : FrameId) (m : TopoArena) {attempts : ℕ} (hattempts : 0 < attempts)
    (hfuel : maxPathEdges < fuel) :
    (compileProg edgeMeta maxFrames fuel target source attempts).run TopoOp.exec m =
      some (compile edgeMeta (m.view maxFrames) target source, m) := by
  unfold compileProg compile
  by_cases heq : target = source
  · rw [if_pos heq, if_pos heq]
    rfl
  rw [if_neg heq, if_neg heq]
  cases attempts with
  | zero => omega
  | succ n =>
    have hwalk := walkProg_agrees (m.view maxFrames) target source hfuel
    have hvia := readVia_run maxFrames (walkProg target source fuel).run m
    rw [compileLoop]
    show (readVia maxFrames m.generation (walkProg target source fuel).run >>= _).run
      TopoOp.exec m = _
    rw [Prog.run_bind, hvia]
    rw [Prog.answerE] at hwalk
    generalize (walkProg target source fuel).run.answer (read (m.view maxFrames)) = got at hwalk ⊢
    generalize walk (m.view maxFrames) target source = ref at hwalk ⊢
    cases ref with
    | error e' =>
      rcases got with _ | (e | (e | _))
      · cases hwalk
      · cases hwalk
        rfl
      · cases hwalk
        rfl
      · cases hwalk
    | ok slices =>
      obtain ⟨ts, ss⟩ := slices
      rcases got with _ | (e | (e | ⟨t, s⟩))
      · cases hwalk
      · cases hwalk
      · cases hwalk
      · obtain ⟨hts, hss⟩ := hwalk
        show (ite (m.generation ≠ m.generation) _ _ : TopoProg (Except LookupError (Plan P))).run
          TopoOp.exec m = _
        rw [if_neg (not_not.mpr rfl), foldArray_eq, hts, hss]
        rfl

end Still

/-- A corrupt block: the frame `2` has a parent that is no frame, and no depth is right. -/
def corrupt : TopoArena where
  word := 9
  blocks := fun _ =>
    { parent := fun f => [0, 2, 9, 0].getD f 0
      edgeOfChild := fun _ => 1
      depth := fun f => [0, 7, 7, 0].getD f 0 }
  published := []

theorem compile_terminates_corrupt : (compileProg branchEdges 4 (maxPathEdges + 1) 1 3 1).run
    TopoOp.exec corrupt = some (.error (.frameOutOfRange 9), corrupt) := by
  have hrun := compile_terminates branchEdges 4 1 3 corrupt Nat.one_pos
    (Nat.lt_succ_self maxPathEdges)
  have hcompile : compile branchEdges (corrupt.view 4) 1 3 = .error (.frameOutOfRange 9) := rfl
  rw [hrun, hcompile]

/-! ## A topology that is mutated -/

/-- The topology of the publication `n`, as if nothing had happened after it. -/
def TopoArena.publication (m : TopoArena) (maxFrames n : ℕ) : TopologyView where
  generation := n % 2 ^ 56
  active := 0
  blocks := fun _ => m.published[n]?.getD Block.empty
  maxFrames := maxFrames

/-- The plan is the one of a publication at least as new as the last one in `m₀`,
    unless the generation may have come round. -/
def PlanOutcome [Mul P] [Inv P] (edgeMeta : EdgeId → Option (EdgeMeta P)) (maxFrames : ℕ)
    (target source : FrameId) (m₀ : TopoArena) : Except LookupError (Plan P) → TopoArena → Prop :=
  Prog.onOk fun plan m => m₀.Evolves m ∧
    (m.published.length < m₀.published.length + 2 ^ 56 → ∃ n, m₀.published.length ≤ n + 1 ∧
      n < m.published.length ∧ plan.generation = n % 2 ^ 56 ∧
      compile edgeMeta (m.publication maxFrames n) target source = .ok plan)

section Mutated

variable {m m' m₀ : TopoArena} {maxFrames fuel n : ℕ} {target source : FrameId}

theorem TopoArena.publication_prefix (hn : n < m.published.length)
    (hp : m.published <+: m'.published) :
    m'.publication maxFrames n = m.publication maxFrames n := by
  have hget : m'.published[n]? = m.published[n]? := by
    rw [List.prefix_iff_getElem?.mp hp n hn, List.getElem?_eq_getElem hn]
  simp only [TopoArena.publication, hget]

/-- An entry is what a `read!` of its publication returns. -/
theorem TopoArena.Entry.read {f : FrameId} {parent depth edge gen : ℕ} (hf : (f : ℕ) < maxFrames)
    (h : m.Entry f n (parent, depth, edge, gen)) :
    read (m.publication maxFrames n) f = .ok ⟨f, parent, depth, edge⟩ := by
  obtain ⟨blk, hget, hout⟩ := h
  obtain ⟨rfl, rfl, rfl, -⟩ : parent = blk.parent f ∧ depth = blk.depth f ∧
    edge = blk.edgeOfChild f ∧ gen = n % 2 ^ 56 := by simpa using hout
  have hblock : (m.publication maxFrames n).block = blk := by
    show m.published[n]?.getD Block.empty = blk
    rw [hget]
    rfl
  refine read_eq_ok.mpr ⟨hf, ?_⟩
  rw [hblock]

/-- A walk that returns read one publication: the one its start generation names. -/
theorem readVia_race {α : Type} (maxFrames : ℕ) (m₀ : TopoArena) (p : WalkProg α)
    (hm : m.Coherent) (hn : n < m.published.length) (h₀ : m₀.published.length ≤ n + 1) :
    (readVia maxFrames (n % 2 ^ 56) p).wp TopoOp.exec TopoArena.Evolves Eq
      (Prog.onOk fun a m' => m.Evolves m' ∧
        (m'.published.length < m₀.published.length + 2 ^ 56 →
          p.answer (read (m'.publication maxFrames n)) = some (.ok a))) m := by
  induction p generalizing m with
  | ret a => exact ⟨.refl m, fun _ => rfl⟩
  | abort => trivial
  | call f k ih =>
    rw [readVia]
    by_cases hf : (f : ℕ) ≥ maxFrames
    · rw [readFrame, if_pos hf]
      trivial
    refine Prog.wp_seq (Prog.wp_mono ?_ (readFrame_race hm maxFrames f))
    rintro (- | ⟨parent, depth, edge, gen⟩) m1 hout
    · trivial
    obtain ⟨he1, hread⟩ := hout
    have hm1 := (he1 hm).1
    have hle1 := he1.length_le hm
    dsimp only
    split_ifs with hgen
    · trivial
    have hgen := not_not.mp hgen
    refine Prog.wp_mono ?_ (ih ⟨f, parent, depth, edge⟩ hm1 (by omega))
    rintro (- | a) m2 hpost
    · trivial
    obtain ⟨he2, hans⟩ := hpost
    refine ⟨he1.trans he2, fun hfew => ?_⟩
    have hle2 := he2.length_le hm1
    -- the entry is one of the publication `n`: no other has that generation
    obtain ⟨j, hj, hlt, hentry⟩ := hread (by omega)
    have hjn : j = n := by
      obtain ⟨blk, -, hout⟩ := hentry
      have hg : gen = j % 2 ^ 56 := by
        have h := congrArg (fun out : ℕ × ℕ × ℕ × ℕ => out.2.2.2) hout
        exact h
      omega
    rw [hjn] at hentry
    rw [Prog.answer, (hentry.evolves (he2 hm1).2).read (not_le.mp hf)]
    exact hans hfew

variable [Mul P] [Inv P] [One P] {edgeMeta : EdgeId → Option (EdgeMeta P)}

omit [One P] in
theorem foldInto_generation {generation : ℕ} {ts ss : List ℕ} {plan : Plan P}
    (h : foldInto edgeMeta generation ts ss = .ok plan) : plan.generation = generation := by
  obtain ⟨st, -, h⟩ := Data.except_bind_eq_ok.mp h
  by_cases hn : st.n > maxDepth
  · rw [if_pos hn] at h
    cases h
  · rw [if_neg hn] at h
    cases h
    rfl

omit [Mul P] [Inv P] [One P] in
/-- The fold does not touch the topology. -/
theorem onOk_foldInto {Q : Plan P → TopoArena → Prop} {res : Except LookupError (Plan P)}
    (h : ∀ plan, res = .ok plan → Q plan m) :
    (pure res : TopoProg (Except LookupError (Plan P))).wp TopoOp.exec TopoArena.Evolves Eq
      (Prog.onOk Q) m := by
  cases res with
  | error e => trivial
  | ok plan => exact h plan rfl

/-- The `'walk` loop, while the mutators run. -/
theorem compileLoop_race (hm₀ : m₀.Coherent) (hm : m₀.Evolves m) (hne : target ≠ source)
    (hfuel : maxPathEdges < fuel) (attempts : ℕ) :
    (compileLoop edgeMeta maxFrames fuel target source attempts).wp TopoOp.exec
      TopoArena.Evolves Eq (PlanOutcome edgeMeta maxFrames target source m₀) m := by
  induction attempts generalizing m with
  | zero => trivial
  | succ attempts ih =>
    rw [compileLoop]
    refine Prog.wp_seq (Prog.wp_seq (wp_loadTopo.mpr fun m1 he1 => ?_))
    have he01 := hm.trans he1
    have hm1 := (he01 hm₀).1
    obtain ⟨n, hn, -⟩ := hm1.word
    have hgen : (unpackTopo m1.word).1 = n % 2 ^ 56 := (hm1.unpack hn).1
    have hle1 := he01.length_le hm₀
    rw [Prog.pure_eq, Prog.wp_ret, hgen]
    have hvia := readVia_race maxFrames m₀ (walkProg target source fuel).run hm1
      (by omega : n < m1.published.length) (by omega)
    refine Prog.wp_seq (Prog.wp_mono ?_ (Prog.wp_frame (P := m1.Evolves)
      (fun _ _ he he' => he.trans he') (by rintro _ _ he rfl; exact he) (.refl m1) hvia))
    rintro res m2 ⟨he12, hpost⟩
    rcases res with (_ | e) | (e | ⟨t, s⟩)
    · exact ih (he01.trans he12)
    · trivial
    · trivial
    · obtain ⟨-, hans⟩ := hpost
      refine Prog.wp_seq (Prog.wp_seq (wp_loadTopo.mpr fun m3 he3 => ?_))
      have he13 := he12.trans he3
      rw [Prog.pure_eq, Prog.wp_ret]
      split_ifs
      · exact ih (he01.trans he13)
      · rw [foldArray_eq]
        refine onOk_foldInto fun plan hplan => ⟨he01.trans he13, fun hfew => ?_⟩
        have hle13 := he13.length_le hm1
        have hle23 := he3.length_le (he12 hm1).1
        refine ⟨n, by omega, by omega, foldInto_generation hplan, ?_⟩
        -- on the publication alone the walk records the same edges
        have hwalk := walkProg_agrees (m3.publication maxFrames n) target source hfuel
        have hn2 : n < m2.published.length := by
          have := he12.length_le hm1
          omega
        have hpub : m3.publication maxFrames n = m2.publication maxFrames n :=
          TopoArena.publication_prefix hn2 (he3 (he12 hm1).1).2
        rw [hpub, Prog.answerE, hans (by omega)] at hwalk
        rw [hpub, compile, if_neg hne]
        generalize walk (m2.publication maxFrames n) target source = ref at hwalk ⊢
        rcases ref with e | ⟨ts, ss⟩
        · cases hwalk
        · obtain ⟨hts, hss⟩ := hwalk
          rw [hts, hss] at hplan
          exact hplan

/-- **Step lemma.** `compile`, while the mutators run. -/
theorem compileProg_race (hm : m.Coherent) (edgeMeta : EdgeId → Option (EdgeMeta P))
    (target source : FrameId) (hfuel : maxPathEdges < fuel) (attempts : ℕ) :
    (compileProg edgeMeta maxFrames fuel target source attempts).wp TopoOp.exec
      TopoArena.Evolves Eq (PlanOutcome edgeMeta maxFrames target source m) m := by
  unfold compileProg
  by_cases heq : target = source
  · rw [if_pos heq]
    refine Prog.wp_seq (Prog.wp_seq (wp_loadTopo.mpr fun m1 he1 => ?_))
    have hm1 := (he1 hm).1
    obtain ⟨n, hn, -⟩ := hm1.word
    have hgen : (unpackTopo m1.word).1 = n % 2 ^ 56 := (hm1.unpack hn).1
    have hle1 := he1.length_le hm
    rw [Prog.pure_eq, Prog.wp_ret, hgen]
    refine ⟨he1, fun _ => ⟨n, by omega, by omega, rfl, ?_⟩⟩
    rw [compile, if_pos heq]
    rfl
  · rw [if_neg heq]
    exact compileLoop_race hm (.refl m) heq hfuel attempts

omit [One P] in
/-- What happens after the call does not change what it returned. -/
theorem PlanOutcome.evolves {out : Except LookupError (Plan P)} (hm : m.Coherent)
    (h : PlanOutcome edgeMeta maxFrames target source m out m₀) (he : m₀.Evolves m') :
    PlanOutcome edgeMeta maxFrames target source m out m' := by
  cases out with
  | error e => trivial
  | ok plan =>
    obtain ⟨he₀, hres⟩ := h
    have hle := he.length_le (he₀ hm).1
    refine ⟨he₀.trans he, fun hfew => ?_⟩
    obtain ⟨n, hn, hlt, hgen, hplan⟩ := hres (by omega)
    refine ⟨n, hn, by omega, hgen, ?_⟩
    rw [TopoArena.publication_prefix hlt (he (he₀ hm).1).2]
    exact hplan

theorem ReadOutcome.evolves {c : ℕ} {out : Option (ℕ × ℕ × ℕ × ℕ)} (hm : m.Coherent)
    (h : ReadOutcome c m out m₀) (he : m₀.Evolves m') : ReadOutcome c m out m' := by
  cases out with
  | none => trivial
  | some out =>
    obtain ⟨he₀, hres⟩ := h
    have hle := he.length_le (he₀ hm).1
    refine ⟨he₀.trans he, fun hfew => ?_⟩
    obtain ⟨n, hn, hlt, hentry⟩ := hres (by omega)
    exact ⟨n, hn, by omega, hentry.evolves (he (he₀ hm).1).2⟩

/-- **Main theorem.** In every interleaving with holders of the mutation lock that
    fail, succeed or die after any store, with fewer than `2 ^ 56` publications during
    the call: what `read_frame` returns is the frame's entry in one publication, and a
    plan `compile` returns is its plan on one publication alone. The publication was
    the last one at some moment of the call, and has the generation that is returned. -/
theorem reads_are_snapshots {s : TopoRun} {garbage : ℕ → Block}
    (hs : Reachable (topoStep maxFrames) (TopoRun.init garbage) s) (holders : List Holder)
    (q : TopoProg Unit)
    (hfew : m.published.length < s.arena.published.length + 2 ^ 56) :
    (∀ child out, Par TopoOp.exec (s.arena, readFrame maxFrames child,
        mutateAll maxFrames holders) (m, .ret (some out), q) →
      ∃ n, s.arena.published.length ≤ n + 1 ∧ n < m.published.length ∧ m.Entry child n out) ∧
    ∀ (edgeMeta : EdgeId → Option (EdgeMeta P)) target source fuel attempts plan,
      maxPathEdges < fuel →
      Par TopoOp.exec (s.arena, compileProg edgeMeta maxFrames fuel target source attempts,
        mutateAll maxFrames holders) (m, .ret (.ok plan), q) →
      ∃ n, s.arena.published.length ≤ n + 1 ∧ n < m.published.length ∧
        plan.generation = n % 2 ^ 56 ∧
        compile edgeMeta (m.publication maxFrames n) target source = .ok plan := by
  have hm₀ := (TopoRun.ok_of_reachable hs).coherent
  constructor
  · intro child out h
    exact (mutators_par hm₀ (fun _ _ _ hout he => hout.evolves hm₀ he)
      (readFrame_race hm₀ maxFrames child) h).2 hfew
  · intro edgeMeta target source fuel attempts plan hfuel h
    exact (mutators_par hm₀ (fun _ _ _ hout he => hout.evolves hm₀ he)
      (compileProg_race hm₀ edgeMeta target source hfuel attempts) h).2 hfew

end Mutated

/-- A reader with a publication and an unfinished one in the middle of its accesses. -/
def readTurns : List Turn :=
  List.flatten [List.replicate 2 .left, List.replicate 23 .right, List.replicate 3 .left,
    List.replicate 5 .right, List.replicate 5 .left]

/-- The same for a compilation. -/
def compileTurns : List Turn :=
  List.flatten [List.replicate 2 .left, List.replicate 23 .right, List.replicate 6 .left,
    List.replicate 5 .right, List.replicate 20 .left]

/-- The edge `7` is static. -/
def swapMeta (e : EdgeId) : Option (EdgeMeta (Equiv.Perm (Fin 3))) :=
  if e = 7 then some ⟨.static, 0, Equiv.swap 0 1⟩ else none

/-- A holder attaches frame `2` and another one dies after five accesses, while the reader
    starts again. -/
theorem reads_are_snapshots_interleaved :
    (∃ m : TopoArena, ∃ n < 2, m.Entry 2 n (1, 1, 7, 1)) ∧
    ∃ (m : TopoArena) (plan : Plan (Equiv.Perm (Fin 3))), plan.generation = 1 ∧
      ∃ n < 2, plan.generation = n % 2 ^ 56 ∧
        compile swapMeta (m.publication 3 n) 1 2 = .ok plan := by
  obtain ⟨s, hs⟩ : ∃ s, s = TopoRun.init fun _ => Block.empty := ⟨_, rfl⟩
  have hr : Reachable (topoStep 3) (TopoRun.init fun _ => Block.empty) s := hs ▸ .refl
  constructor
  · obtain ⟨m, q, hturns, hlen⟩ : ∃ m q, readTurns.foldlM (parTurn TopoOp.exec)
        (s.arena, readFrame 3 2, mutateAll 3 [⟨2, 1, 7, none⟩, ⟨1, 2, 3, some 5⟩]) =
          some (m, .ret (some (1, 1, 7, 1)), q) ∧ m.published.length = 2 := by
      subst hs
      exact ⟨_, _, rfl, rfl⟩
    obtain ⟨n, -, hn, hentry⟩ := (reads_are_snapshots (P := Equiv.Perm (Fin 3)) hr _ q
      (by omega)).1 2 _ (par_of_turns hturns)
    exact ⟨m, n, by omega, hentry⟩
  · have hrun : (compileTurns.foldlM (parTurn TopoOp.exec) (s.arena,
        compileProg swapMeta 3 (maxPathEdges + 1) 1 2 3,
        mutateAll 3 [⟨2, 1, 7, none⟩, ⟨1, 2, 3, some 5⟩])).any (fun out =>
          match out.2.1 with
          | .ret (.ok plan) => plan.generation == 1 && out.1.published.length == 2
          | .ret (.error _) => false
          | .call _ _ => false
          | .abort => false) = true := by
      subst hs
      decide +kernel
    obtain ⟨⟨m, p, q⟩, hturns, hout⟩ := (Option.any_eq_true _ _).mp hrun
    cases p with
    | call o k => cases hout
    | abort => cases hout
    | ret res =>
      cases res with
      | error e => cases hout
      | ok plan =>
        obtain ⟨hgen, hlen⟩ := Bool.and_eq_true_iff.mp hout
        have hlen : m.published.length = 2 := eq_of_beq hlen
        obtain ⟨n, -, hn, hsame, hplan⟩ := (reads_are_snapshots hr _ q (by omega)).2 swapMeta 1 2
          (maxPathEdges + 1) 3 plan (Nat.lt_succ_self _) (par_of_turns hturns)
        exact ⟨m, plan, eq_of_beq hgen, n, by omega, hsame, hplan⟩

end TfTree
