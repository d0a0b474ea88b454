import Mathlib
import TfTree.Data.OkPrefix
import TfTree.Plan.Topology

/-!
# Compiling a lookup path

`compile` and `fold_into` (`tf_tree_core/src/plan.rs`) over an arbitrary type of
poses, and what the compiled steps mean in a group.

Results:
* `walk_spec`: the two walks end at the lowest common ancestor.
* `foldInto_spec`: the steps, in order, multiply to the product of the path's edges;
  the derived fields are the path's.
* `compile_meaning`: a compiled plan folds to `P_target⁻¹ * P_source`.
-/

namespace TfTree

open Data

/-! ## Model of `plan.rs` -/

/-- `MAX_DEPTH`. -/
def maxDepth : ℕ := 32

theorem maxDepth_pos : 0 < maxDepth := by decide

/-- `MAX_PATH_EDGES`. -/
def maxPathEdges : ℕ := 64

/-- `EdgeKind`. -/
inductive EdgeKind where
  | dynamic
  | static
  | tombstone
  deriving DecidableEq, Repr

/-- `EdgeMeta`, over poses `P`. -/
structure EdgeMeta (P : Type) where
  kind : EdgeKind
  domain : ℕ
  staticPose : P

/-- `Step`. -/
inductive Step (P : Type) where
  | static (m : P)
  | dyn (edge : EdgeId) (inverted : Bool)
  deriving DecidableEq, Repr

/-- `Plan`; `steps` is `steps[..len]` of the source. -/
structure Plan (P : Type) where
  generation : ℕ
  steps : List (Step P)
  domain : ℕ
  dynCount : ℕ
  firstDyn : EdgeId
  steps_le : steps.length ≤ maxDepth

variable {P : Type}

/-- `Plan::identity`. -/
def Plan.identity (generation : ℕ) : Plan P where
  generation := generation
  steps := []
  domain := 0
  dynCount := 0
  firstDyn := 0
  steps_le := Nat.zero_le _

/-- One iteration of the loop of `Plan::fold_at` (lines 426–438), on the pose sampled
    for a dynamic step. -/
def Step.compose [Mul P] [Div P] (acc : P) (pose : EdgeId → P) : Step P → P
  | .static m => acc * m
  | .dyn edge inverted => if inverted then acc / pose edge else acc * pose edge

/-- The value `Plan::fold_at` computes from the poses of the dynamic edges. -/
def foldPoses [Mul P] [Div P] [One P] (pose : EdgeId → P) (steps : List (Step P)) : P :=
  steps.foldl (fun acc s => s.compose acc pose) 1

/-! ### The walk -/

/-- A frame with what `read_frame` returned for it. -/
structure Cursor where
  frame : FrameId
  parent : ℕ
  depth : ℕ
  edge : ℕ

section Walk

variable (topo : TopologyView) (target source : FrameId)

/-- The `read!` macro of `compile`, on a topology nobody mutates. -/
def read (f : FrameId) : Except LookupError Cursor :=
  match topo.readFrame f with
  | none => .error (.frameOutOfRange f)
  | some (parent, depth, edge) => .ok ⟨f, parent, depth, edge⟩

/-- `frame_or_disconnect` (lines 1864–1875). -/
def frameOrDisconnect (parent : ℕ) (cutAt : FrameId) : Except LookupError FrameId :=
  match FrameId.new parent with
  | none => .error (.disconnected target source cutAt)
  | some f => .ok f

/-- The `while da > db` loop (lines 1813–1820), and its mirror image for the source.
    `budget` is `MAX_PATH_EDGES - (nt + ns)`; returns the recorded edges, the frame
    reached and the budget left. -/
def climb (goal : ℕ) (budget : ℕ) (c : Cursor) : Except LookupError (List ℕ × Cursor × ℕ) :=
  if c.depth > goal then
    match budget with
    | 0 => .error (.treeTooDeep (maxPathEdges + 1))
    | budget + 1 =>
      if c.edge = 0 then .error (.missingEdge c.frame)
      else do
        let f ← frameOrDisconnect target source c.parent c.frame
        let c' ← read topo f
        let (es, out, left) ← climb goal budget c'
        return (c.edge :: es, out, left)
  else .ok ([], c, budget)

/-- The `while a != b` loop (lines 1830–1848); returns the edges recorded on either
    side. -/
def meet (budget : ℕ) (a b : Cursor) : Except LookupError (List ℕ × List ℕ) :=
  if a.frame = b.frame then .ok ([], [])
  else if a.parent = 0 ∨ b.parent = 0 then .error (.disconnected target source a.frame)
  else
    match budget with
    | 0 => .error (.treeTooDeep (maxPathEdges + 1))
    | 1 =>
      if a.edge = 0 then .error (.missingEdge a.frame)
      else .error (.treeTooDeep (maxPathEdges + 1))
    | budget + 2 =>
      if a.edge = 0 then .error (.missingEdge a.frame)
      else if b.edge = 0 then .error (.missingEdge b.frame)
      else do
        let fa ← frameOrDisconnect target source a.parent a.frame
        let fb ← frameOrDisconnect target source b.parent b.frame
        let a' ← read topo fa
        let b' ← read topo fb
        let (ts, ss) ← meet budget a' b'
        return (a.edge :: ts, b.edge :: ss)

/-- The walk of `compile` (lines 1783–1848): `t_edges` and `s_edges`. -/
def walk : Except LookupError (List ℕ × List ℕ) := do
  let a ← read topo target
  let b ← read topo source
  let (ts, a', budget) ← climb topo target source b.depth maxPathEdges a
  let (ss, b', budget) ← climb topo target source a'.depth budget b
  let (ts', ss') ← meet topo target source budget a' b'
  return (ts ++ ts', ss ++ ss')

end Walk

/-! ### Constant folding -/

/-- The locals of `fold_into`. `out` are the written entries of the step array. -/
structure FoldState (P : Type) where
  out : List (Step P)
  n : ℕ
  dynCount : ℕ
  firstDyn : EdgeId
  lastStatic : Bool
  domain : Option ℕ
  out_len : out.length = min n maxDepth

/-- The locals before the loop. -/
def FoldState.init : FoldState P := ⟨[], 0, 0, 0, false, none, rfl⟩

section Fold

variable [Mul P] [Inv P] (edgeMeta : EdgeId → Option (EdgeMeta P))

/-- The append arm of the loop (lines 1953–1966). -/
def FoldState.append (st : FoldState P) (s : Step P) : FoldState P where
  out := if st.n < maxDepth then st.out ++ [s] else st.out
  n := st.n + 1
  firstDyn := match s with
    | .dyn edge _ => if st.dynCount = 0 then edge else st.firstDyn
    | .static _ => st.firstDyn
  dynCount := match s with
    | .dyn _ _ => min 255 (st.dynCount + 1)
    | .static _ => st.dynCount
  lastStatic := match s with
    | .static _ => true
    | .dyn _ _ => false
  domain := st.domain
  out_len := by
    have h := st.out_len
    split_ifs
    · rw [List.length_append, List.length_singleton]
      omega
    · omega

/-- A resolved static step (lines 1945–1952): collapsed into a previous one, or
    appended. -/
def FoldState.pushStatic (st : FoldState P) (cur : P) : FoldState P :=
  if st.lastStatic then
    if st.n ≤ maxDepth then
      match st.out[st.n - 1]? with
      | some (.static prev) =>
        { st with
          out := st.out.set (st.n - 1) (.static (prev * cur))
          out_len := (List.length_set ..).trans st.out_len }
      | _ => st
    else st
  else st.append (.static cur)

/-- One iteration of the loop of `fold_into` (lines 1914–1968). -/
def foldStep (st : FoldState P) (edge : EdgeId) (inverted : Bool) :
    Except LookupError (FoldState P) :=
  match edgeMeta edge with
  | none => .error (.unknownEdge edge)
  | some em =>
    if em.kind = .static then
      .ok (st.pushStatic (if inverted then em.staticPose⁻¹ else em.staticPose))
    else
      match st.domain with
      | none => .ok ({ st with domain := some em.domain }.append (.dyn edge inverted))
      | some d =>
        if d ≠ em.domain then .error (.mixedTimeDomains edge d em.domain)
        else .ok (st.append (.dyn edge inverted))

/-- The loop of `fold_into` over a path of edges and inversion flags. -/
def foldPath : FoldState P → List (EdgeId × Bool) → Except LookupError (FoldState P)
  | st, [] => .ok st
  | st, (edge, inverted) :: path => do
    let st' ← foldStep edgeMeta st edge inverted
    foldPath st' path

/-- The path `fold_into` iterates over: `t_edges` inverted, then `s_edges` reversed. -/
def foldEdges (tEdges sEdges : List ℕ) : List (EdgeId × Bool) :=
  tEdges.map (·, true) ++ sEdges.reverse.map (·, false)

/-- `fold_into` (lines 1893–1978), returning the plan it fills. -/
def foldInto (generation : ℕ) (tEdges sEdges : List ℕ) : Except LookupError (Plan P) := do
  let st ← foldPath edgeMeta .init (foldEdges tEdges sEdges)
  if st.n > maxDepth then throw (.treeTooDeep st.n)
  else return {
    generation := generation
    steps := st.out
    domain := st.domain.getD 0
    dynCount := st.dynCount
    firstDyn := st.firstDyn
    steps_le := by rw [st.out_len]; exact min_le_right _ _ }

/-- `compile` (lines 1754–1860) on a topology nobody mutates: one pass of the
    `'walk` loop. -/
def compile (topo : TopologyView) (target source : FrameId) : Except LookupError (Plan P) :=
  if target = source then .ok (Plan.identity topo.generation)
  else do
    let (tEdges, sEdges) ← walk topo target source
    foldInto edgeMeta topo.generation tEdges sEdges

end Fold

/-! ### What a compilation reads -/

section Reads

variable {topo topo' : TopologyView} {target source : FrameId}

theorem climb_congr (h : read topo = read topo') (goal budget : ℕ) (c : Cursor) :
    climb topo target source goal budget c = climb topo' target source goal budget c := by
  induction budget generalizing c with
  | zero => unfold climb; rfl
  | succ budget ih =>
    unfold climb
    simp only [h, ih]

theorem meet_congr (h : read topo = read topo') (budget : ℕ) (a b : Cursor) :
    meet topo target source budget a b = meet topo' target source budget a b := by
  induction budget using Nat.strong_induction_on generalizing a b with
  | _ budget ih =>
    match budget with
    | 0 => unfold meet; rfl
    | 1 => unfold meet; rfl
    | budget + 2 =>
      have hrest := fun a b => ih budget (by omega) a b
      unfold meet
      simp only [h, hrest]

/-- A compilation reads the published block, and the generation. -/
theorem compile_congr [Mul P] [Inv P] {edgeMeta : EdgeId → Option (EdgeMeta P)}
    (hgen : topo.generation = topo'.generation) (hblock : topo.block = topo'.block)
    (hframes : topo.maxFrames = topo'.maxFrames) :
    compile edgeMeta topo target source = compile edgeMeta topo' target source := by
  have hread : read topo = read topo' := by
    funext f
    unfold read TopologyView.readFrame
    rw [hblock, hframes]
  have hwalk : walk topo target source = walk topo' target source := by
    unfold walk
    simp only [hread, climb_congr hread, meet_congr hread]
  unfold compile
  rw [hgen, hwalk]

end Reads

/-! ## The walk -/

section WalkSpec

variable {topo : TopologyView} {target source f g : FrameId} {c a b out : Cursor}
  {goal budget left : ℕ} {es ts ss : List ℕ}

theorem read_eq_ok : read topo f = .ok c ↔ (f : ℕ) < topo.maxFrames ∧
    c = ⟨f, topo.block.parent f, topo.block.depth f, topo.block.edgeOfChild f⟩ := by
  unfold read TopologyView.readFrame
  by_cases h : (f : ℕ) ≥ topo.maxFrames
  · simp only [if_pos h]
    simp
    omega
  · simp only [if_neg h, Except.ok.injEq]
    constructor
    · rintro rfl
      exact ⟨by omega, rfl⟩
    · rintro ⟨-, rfl⟩
      rfl

theorem frameOrDisconnect_eq_ok {parent : ℕ} :
    frameOrDisconnect target source parent f = .ok g ↔ (g : ℕ) = parent := by
  unfold frameOrDisconnect
  cases h : FrameId.new parent with
  | none =>
    have h0 := FrameId.new_eq_none.mp h
    have hg := g.pos
    simp
    omega
  | some f' =>
    have hf' := FrameId.new_eq_some.mp h
    simp only [Except.ok.injEq, ← hf', PNat.coe_inj]
    exact eq_comm

/-- The cursor holds what `read` returns for its frame. -/
def Cursor.Valid (topo : TopologyView) (c : Cursor) : Prop := read topo c.frame = .ok c

theorem Cursor.Valid.of_read (h : read topo f = .ok c) : c.Valid topo ∧ c.frame = f := by
  obtain ⟨hlt, rfl⟩ := read_eq_ok.mp h
  exact ⟨read_eq_ok.mpr ⟨hlt, rfl⟩, rfl⟩

/-- One step up: the edge of the cursor leads to its parent. -/
theorem Cursor.Valid.step (hc : c.Valid topo) (hp : (f : ℕ) = c.parent) (h : Climbs topo f es g) :
    Climbs topo c.frame (c.edge :: es) g := by
  obtain ⟨hlt, he⟩ := read_eq_ok.mp hc
  have hparent := congrArg Cursor.parent he
  have hedge := congrArg Cursor.edge he
  dsimp only at hparent hedge
  rw [hedge]
  exact .step hlt (by rw [← hparent, hp]) h

/-- The climb of one side. Its depth never passes the goal: depths are distances,
    capped. -/
theorem climb_spec (hf : topo.IsForest) (hc : c.Valid topo)
    (h : climb topo target source goal budget c = .ok (es, out, left)) :
    Climbs topo c.frame es out.frame ∧ out.Valid topo ∧ es.length + left = budget ∧
      (c.depth ≤ goal → es = [] ∧ out = c) ∧ (goal ≤ c.depth → out.depth = goal) := by
  induction budget generalizing c es with
  | zero =>
    rw [climb] at h
    split_ifs at h with hd
    cases h
    exact ⟨.refl _, hc, rfl, fun _ => ⟨rfl, rfl⟩, fun hg => by omega⟩
  | succ budget ih =>
    rw [climb] at h
    split_ifs at h with hd he
    · obtain ⟨f, hp, h⟩ := except_bind_eq_ok.mp h
      obtain ⟨c', hr, h⟩ := except_bind_eq_ok.mp h
      obtain ⟨⟨es', out', left'⟩, hrec, h⟩ := except_bind_eq_ok.mp h
      cases h
      obtain ⟨hc', rfl⟩ := Cursor.Valid.of_read hr
      have hparent := frameOrDisconnect_eq_ok.mp hp
      obtain ⟨h1, h2, h3, -, h5⟩ := ih hc' hrec
      refine ⟨hc.step hparent h1, h2, by simp; omega, fun hg => by omega, fun _ => h5 ?_⟩
      -- the parent is one closer to the root
      obtain ⟨dist, hdist⟩ := hf
      obtain ⟨hlt, hce⟩ := read_eq_ok.mp hc
      obtain ⟨hlt', hce'⟩ := read_eq_ok.mp hc'
      have hdepth := congrArg Cursor.depth hce
      have hdepth' := congrArg Cursor.depth hce'
      have hpar := congrArg Cursor.parent hce
      dsimp only at hdepth hdepth' hpar
      obtain ⟨hd1, -, hd3⟩ := hdist c.frame hlt
      obtain ⟨hd1', -, -⟩ := hdist c'.frame hlt'
      have hpos := c'.frame.pos
      rw [← hpar, ← hparent] at hd3
      have hstep := hd3 (by omega)
      omega
    · cases h
      exact ⟨.refl _, hc, Nat.zero_add _, fun _ => ⟨rfl, rfl⟩, fun hg => by omega⟩

/-- The lockstep walk ends where the two sides first agree. -/
theorem meet_spec (ha : a.Valid topo) (hb : b.Valid topo)
    (h : meet topo target source budget a b = .ok (ts, ss)) :
    ∃ m, Climbs topo a.frame ts m ∧ Climbs topo b.frame ss m ∧ ts.length = ss.length ∧
      ts.length + ss.length ≤ budget ∧
      ∀ c us vs, Climbs topo a.frame us c → Climbs topo b.frame vs c → us.length = vs.length →
        ts.length ≤ us.length := by
  induction budget using Nat.strong_induction_on generalizing a b ts ss with
  | _ budget ih =>
    rw [meet.eq_def] at h
    by_cases heq : a.frame = b.frame
    · rw [if_pos heq] at h
      cases h
      exact ⟨b.frame, heq ▸ .refl _, .refl _, rfl, by simp, fun _ _ _ _ _ _ => by simp⟩
    · rw [if_neg heq] at h
      by_cases hroot : a.parent = 0 ∨ b.parent = 0
      · rw [if_pos hroot] at h
        cases h
      rw [if_neg hroot] at h
      match budget with
      | 0 => cases h
      | 1 => split_ifs at h
      | budget + 2 =>
        dsimp only at h
        split_ifs at h with hea heb
        obtain ⟨fa, hpa, h⟩ := except_bind_eq_ok.mp h
        obtain ⟨fb, hpb, h⟩ := except_bind_eq_ok.mp h
        obtain ⟨a', hra, h⟩ := except_bind_eq_ok.mp h
        obtain ⟨b', hrb, h⟩ := except_bind_eq_ok.mp h
        obtain ⟨⟨ts', ss'⟩, hrec, h⟩ := except_bind_eq_ok.mp h
        cases h
        obtain ⟨ha', rfl⟩ := Cursor.Valid.of_read hra
        obtain ⟨hb', rfl⟩ := Cursor.Valid.of_read hrb
        have hpa := frameOrDisconnect_eq_ok.mp hpa
        have hpb := frameOrDisconnect_eq_ok.mp hpb
        obtain ⟨m, h1, h2, h3, h4, h5⟩ := ih budget (by omega) ha' hb' hrec
        refine ⟨m, ha.step hpa h1, hb.step hpb h2, by simp [h3], by simp; omega, ?_⟩
        intro c us vs hus hvs hlen
        match us, vs with
        | [], [] => exact absurd (hus.eq_of_nil.trans hvs.eq_of_nil.symm) heq
        | [], _ :: _ => simp at hlen
        | _ :: _, [] => simp at hlen
        | _ :: us, _ :: vs =>
          obtain ⟨fa, hp, hus'⟩ := hus.of_cons
          obtain ⟨fb, hp', hvs'⟩ := hvs.of_cons
          have hap := congrArg Cursor.parent (read_eq_ok.mp ha).2
          have hbp := congrArg Cursor.parent (read_eq_ok.mp hb).2
          dsimp only at hap hbp
          obtain rfl := PNat.coe_injective (hp.symm.trans (hap.symm.trans hpa.symm))
          obtain rfl := PNat.coe_injective (hp'.symm.trans (hbp.symm.trans hpb.symm))
          have hle := h5 c us vs hus' hvs' (by simpa using hlen)
          simpa using hle

/-- The two walks end at the lowest common ancestor. -/
theorem walk_spec (hf : topo.IsForest) (h : walk topo target source = .ok (ts, ss)) :
    ∃ m, Climbs topo target ts m ∧ Climbs topo source ss m ∧ IsLca topo target source m ∧
      ts.length + ss.length ≤ maxPathEdges := by
  obtain ⟨a, hra, h⟩ := except_bind_eq_ok.mp h
  obtain ⟨b, hrb, h⟩ := except_bind_eq_ok.mp h
  obtain ⟨⟨ts1, a', budget1⟩, hclimb, h⟩ := except_bind_eq_ok.mp h
  obtain ⟨⟨ss1, b', budget2⟩, hclimb', h⟩ := except_bind_eq_ok.mp h
  obtain ⟨⟨ts2, ss2⟩, hmeet, h⟩ := except_bind_eq_ok.mp h
  cases h
  obtain ⟨ha, rfl⟩ := Cursor.Valid.of_read hra
  obtain ⟨hb, rfl⟩ := Cursor.Valid.of_read hrb
  obtain ⟨h1, ha', hlen1, hstay1, hgoal1⟩ := climb_spec hf ha hclimb
  obtain ⟨h2, hb', hlen2, hstay2, -⟩ := climb_spec hf hb hclimb'
  obtain ⟨m, h3, h4, hlen, hlen3, hfirst⟩ := meet_spec ha' hb' hmeet
  have ht := h1.trans h3
  have hs := h2.trans h4
  refine ⟨m, ht, hs, ⟨ht.anc, hs.anc, ?_⟩, by simp; omega⟩
  -- a common ancestor is no deeper than where the lockstep walk starts
  obtain ⟨dist, hdist⟩ := hf
  have hd : ∀ f : FrameId, (f : ℕ) < topo.maxFrames → topo.block.parent f ≠ 0 →
      dist f = dist (topo.block.parent f) + 1 := fun f hlt => (hdist f hlt).2.2
  have d1 := h1.dist hd
  have d2 := h2.dist hd
  have d3 := h3.dist hd
  have d4 := h4.dist hd
  rintro c ⟨us, hus⟩ ⟨vs, hvs⟩
  have du := hus.dist hd
  have dv := hvs.dist hd
  rcases Nat.le_total b.depth a.depth with hle | hle
  · -- only the target's side climbed
    obtain ⟨rfl, rfl⟩ := hstay2 (hgoal1 hle).ge
    obtain ⟨us', rfl, hus'⟩ := h1.prefix hus (by simp at d2; omega)
    rw [List.length_append] at du
    have hmin := hfirst c us' vs hus' hvs (by simp at d2; omega)
    obtain ⟨ws, -, hws⟩ := h3.prefix hus' hmin
    exact hws.anc
  · obtain ⟨rfl, rfl⟩ := hstay1 hle
    obtain ⟨vs', rfl, hvs'⟩ := h2.prefix hvs (by simp at d1; omega)
    rw [List.length_append] at dv
    have hmin := hfirst c us vs' hus hvs' (by simp at d1; omega)
    obtain ⟨ws, -, hws⟩ := h3.prefix hus hmin
    exact hws.anc

end WalkSpec

/-! ## Constant folding in a group -/

/-- The path edge as a step of its own, not merged with its neighbours. -/
def resolve [Inv P] (edgeMeta : EdgeId → Option (EdgeMeta P)) (e : EdgeId × Bool) : Step P :=
  match edgeMeta e.1 with
  | none => .dyn e.1 e.2
  | some em =>
    if em.kind = .static then .static (if e.2 then em.staticPose⁻¹ else em.staticPose)
    else .dyn e.1 e.2

/-- The edge and the inversion flag of a dynamic step. -/
def Step.dyn? : Step P → Option (EdgeId × Bool)
  | .static _ => none
  | .dyn edge inverted => some (edge, inverted)

/-- The dynamic edges of a path, with their inversion flags. -/
def dynEdges [Inv P] (edgeMeta : EdgeId → Option (EdgeMeta P)) (path : List (EdgeId × Bool)) :
    List (EdgeId × Bool) :=
  path.filterMap fun e => (resolve edgeMeta e).dyn?

section FoldSpec

variable {G : Type} [Group G] {edgeMeta : EdgeId → Option (EdgeMeta G)} {pose : EdgeId → G}
  {done path : List (EdgeId × Bool)} {st st' : FoldState G} {edge : EdgeId} {inverted : Bool}

/-- The factor a step contributes. -/
def Step.factor (pose : EdgeId → G) : Step G → G
  | .static m => m
  | .dyn edge inverted => if inverted then (pose edge)⁻¹ else pose edge

/-- In a group the steps multiply. -/
theorem foldPoses_eq_prod (pose : EdgeId → G) (steps : List (Step G)) :
    foldPoses pose steps = (steps.map (Step.factor pose)).prod := by
  have hgen : ∀ acc, steps.foldl (fun acc s => s.compose acc pose) acc =
      acc * (steps.map (Step.factor pose)).prod := by
    induction steps with
    | nil => intro acc; simp
    | cons s steps ih =>
      intro acc
      have hs : s.compose acc pose = acc * s.factor pose := by
        cases s with
        | static m => rfl
        | dyn edge inverted => cases inverted <;> simp [Step.compose, Step.factor, div_eq_mul_inv]
      rw [List.foldl_cons, ih, hs, List.map_cons, List.prod_cons, mul_assoc]
  rw [foldPoses, hgen, one_mul]

/-- What the loop of `fold_into` has computed after the part `done` of the path. -/
structure FoldInv (edgeMeta : EdgeId → Option (EdgeMeta G)) (done : List (EdgeId × Bool))
    (st : FoldState G) : Prop where
  value : st.n ≤ maxDepth → ∀ pose, (st.out.map (Step.factor pose)).prod =
    ((done.map (resolve edgeMeta)).map (Step.factor pose)).prod
  dyns : st.n ≤ maxDepth → st.out.filterMap Step.dyn? = dynEdges edgeMeta done
  last : st.n ≤ maxDepth → st.lastStatic = true →
    ∃ init m, st.out = init ++ [.static m] ∧ st.n = init.length + 1
  count : st.dynCount = min 255 (dynEdges edgeMeta done).length
  first : st.firstDyn = ((dynEdges edgeMeta done).head?.map Prod.fst).getD 0
  domains : ∀ e ∈ dynEdges edgeMeta done, ∃ em, edgeMeta e.1 = some em ∧ st.domain = some em.domain
  noDomain : dynEdges edgeMeta done = [] → st.domain = none

theorem FoldInv.init : FoldInv edgeMeta [] .init where
  value := fun _ _ => rfl
  dyns := fun _ => rfl
  last := fun _ h => by cases h
  count := rfl
  first := rfl
  domains := fun _ h => by cases h
  noDomain := fun _ => rfl

theorem dynEdges_snoc (e : EdgeId × Bool) : dynEdges edgeMeta (done ++ [e]) =
    dynEdges edgeMeta done ++ (resolve edgeMeta e).dyn?.toList := by
  unfold dynEdges
  rw [List.filterMap_append]
  cases h : (resolve edgeMeta e).dyn? <;> simp [h]

/-- Appending a step, with whatever domain the step leaves. -/
theorem FoldInv.append (h : FoldInv edgeMeta done st) {e : EdgeId × Bool} {s : Step G}
    (he : resolve edgeMeta e = s) {dom : Option ℕ}
    (hdom : ∀ e' ∈ dynEdges edgeMeta (done ++ [e]),
      ∃ em, edgeMeta e'.1 = some em ∧ dom = some em.domain)
    (hno : dynEdges edgeMeta (done ++ [e]) = [] → dom = none) :
    FoldInv edgeMeta (done ++ [e]) ({ st with domain := dom }.append s) := by
  have hdyn : dynEdges edgeMeta (done ++ [e]) = dynEdges edgeMeta done ++ s.dyn?.toList := by
    rw [dynEdges_snoc, he]
  have hout : st.n + 1 ≤ maxDepth → ({ st with domain := dom }.append s).out = st.out ++ [s] := by
    intro hn
    exact if_pos hn
  have hcount := h.count
  refine ⟨fun hn pose => ?_, fun hn => ?_, fun hn hs => ?_, ?_, ?_, hdom, hno⟩
  · have hv := h.value (Nat.le_of_succ_le hn) pose
    rw [hout hn]
    simp only [List.map_append, List.prod_append, hv, List.map_cons, List.map_nil, he]
  · have hd := h.dyns (Nat.le_of_succ_le hn)
    rw [hout hn, hdyn, List.filterMap_append, hd]
    cases s <;> rfl
  · cases s with
    | dyn edge inverted => cases hs
    | static m =>
      refine ⟨st.out, m, hout hn, ?_⟩
      have hlen := st.out_len
      have hn' : st.n + 1 ≤ maxDepth := hn
      show st.n + 1 = st.out.length + 1
      omega
  · rw [hdyn]
    cases s with
    | static m => simpa [FoldState.append, Step.dyn?] using hcount
    | dyn edge inverted =>
      simp only [FoldState.append, Step.dyn?, Option.toList_some, List.length_append,
        List.length_singleton, hcount]
      omega
  · rw [hdyn]
    cases s with
    | static m => simpa [FoldState.append, Step.dyn?] using h.first
    | dyn edge inverted =>
      have hfirst := h.first
      cases hes : dynEdges edgeMeta done with
      | nil =>
        rw [hes] at hcount
        have h0 : st.dynCount = 0 := hcount
        simp [FoldState.append, Step.dyn?, h0]
      | cons e' es =>
        rw [hes] at hcount hfirst
        have h0 : st.dynCount ≠ 0 := by
          rw [hcount, List.length_cons]
          omega
        simpa [FoldState.append, Step.dyn?, h0] using hfirst

/-- A static edge is merged into a static step before it, or appended. -/
theorem FoldInv.pushStatic (h : FoldInv edgeMeta done st) {e : EdgeId × Bool} {cur : G}
    (he : resolve edgeMeta e = .static cur) :
    FoldInv edgeMeta (done ++ [e]) (st.pushStatic cur) := by
  have hsnoc : dynEdges edgeMeta (done ++ [e]) = dynEdges edgeMeta done := by
    rw [dynEdges_snoc, he]
    exact List.append_nil _
  unfold FoldState.pushStatic
  by_cases hlast : st.lastStatic = true
  · rw [if_pos hlast]
    by_cases hn : st.n ≤ maxDepth
    · rw [if_pos hn]
      obtain ⟨init, m, hout, hlen⟩ := h.last hn hlast
      have hget : st.out[st.n - 1]? = some (.static m) := by
        rw [hout, hlen, Nat.add_sub_cancel]
        exact List.getElem?_concat_length
      have hset : st.out.set (st.n - 1) (.static (m * cur)) = init ++ [.static (m * cur)] := by
        rw [hout, hlen, Nat.add_sub_cancel, List.set_append_right _ _ le_rfl, Nat.sub_self]
        rfl
      simp only [hget]
      refine ⟨fun _ pose => ?_, fun _ => ?_, fun _ _ => ⟨init, _, hset, hlen⟩, ?_, ?_, ?_, ?_⟩
      · have hv := h.value hn pose
        rw [hout] at hv
        simp only [hset, List.map_append, List.prod_append, List.map_cons, List.map_nil, he,
          ← hv, List.prod_singleton, Step.factor, mul_assoc]
      · have hd := h.dyns hn
        rw [hout] at hd
        rw [hsnoc, ← hd]
        simp only [hset, List.filterMap_append]
        rfl
      · rw [hsnoc]; exact h.count
      · rw [hsnoc]; exact h.first
      · rw [hsnoc]; exact h.domains
      · rw [hsnoc]; exact h.noDomain
    · -- the step array is full: nothing is written, and the fold fails at the end
      rw [if_neg hn]
      refine ⟨fun hn' => absurd hn' hn, fun hn' => absurd hn' hn, fun hn' => absurd hn' hn,
        ?_, ?_, ?_, ?_⟩
      · rw [hsnoc]; exact h.count
      · rw [hsnoc]; exact h.first
      · rw [hsnoc]; exact h.domains
      · rw [hsnoc]; exact h.noDomain
  · rw [if_neg hlast]
    exact h.append he (hsnoc ▸ h.domains) (hsnoc ▸ h.noDomain)

/-- One iteration of the loop keeps the invariant. -/
theorem FoldInv.step (h : FoldInv edgeMeta done st)
    (hstep : foldStep edgeMeta st edge inverted = .ok st') :
    FoldInv edgeMeta (done ++ [(edge, inverted)]) st' := by
  unfold foldStep at hstep
  cases hmeta : edgeMeta edge with
  | none => simp only [hmeta] at hstep; cases hstep
  | some em =>
    simp only [hmeta] at hstep
    by_cases hkind : em.kind = .static
    · rw [if_pos hkind] at hstep
      cases hstep
      refine h.pushStatic ?_
      simp [resolve, hmeta, hkind]
    · rw [if_neg hkind] at hstep
      have he : resolve edgeMeta (edge, inverted) = .dyn edge inverted := by
        simp [resolve, hmeta, hkind]
      have hmem : (edge, inverted) ∈ dynEdges edgeMeta (done ++ [(edge, inverted)]) := by
        rw [dynEdges_snoc, he]
        simp [Step.dyn?]
      -- every dynamic edge so far has the domain the step leaves
      have hdom : ∀ dom : Option ℕ, dom = some em.domain →
          (∀ e' ∈ dynEdges edgeMeta done, ∃ em', edgeMeta e'.1 = some em' ∧
            dom = some em'.domain) →
          ∀ e' ∈ dynEdges edgeMeta (done ++ [(edge, inverted)]),
            ∃ em', edgeMeta e'.1 = some em' ∧ dom = some em'.domain := by
        intro dom heq hold e' he'
        rw [dynEdges_snoc, he, List.mem_append] at he'
        rcases he' with he' | he'
        · exact hold e' he'
        · obtain rfl : e' = (edge, inverted) := by simpa [Step.dyn?] using he'
          exact ⟨em, hmeta, heq⟩
      cases hd : st.domain with
      | none =>
        rw [hd] at hstep
        cases hstep
        refine h.append he (hdom _ rfl ?_) fun hnil => ?_
        · intro e' he'
          obtain ⟨em', -, hsome⟩ := h.domains e' he'
          rw [hd] at hsome
          cases hsome
        · rw [hnil] at hmem
          cases hmem
      | some d =>
        rw [hd] at hstep
        by_cases hne : d ≠ em.domain
        · simp only [if_pos hne] at hstep
          cases hstep
        · simp only [if_neg hne] at hstep
          cases hstep
          refine h.append he (hdom _ ?_ h.domains) fun hnil => ?_
          · rw [hd, not_not.mp hne]
          · rw [hnil] at hmem
            cases hmem

theorem foldPath_spec (h : FoldInv edgeMeta done st)
    (hrun : foldPath edgeMeta st path = .ok st') : FoldInv edgeMeta (done ++ path) st' := by
  induction path generalizing done st with
  | nil =>
    cases hrun
    rwa [List.append_nil]
  | cons e path ih =>
    obtain ⟨st1, hstep, hrun⟩ := except_bind_eq_ok.mp hrun
    have htail := ih (h.step hstep) hrun
    rwa [List.append_assoc] at htail

/-- What a plan must be for a path: `value` and `merged` speak about every assignment of
    poses to the dynamic edges. -/
structure PlanOf (edgeMeta : EdgeId → Option (EdgeMeta G)) (path : List (EdgeId × Bool))
    (plan : Plan G) : Prop where
  merged : ∀ pose, foldPoses pose plan.steps = foldPoses pose (path.map (resolve edgeMeta))
  dyns : plan.steps.filterMap Step.dyn? = dynEdges edgeMeta path
  count : plan.dynCount = min 255 (dynEdges edgeMeta path).length
  first : plan.firstDyn = ((dynEdges edgeMeta path).head?.map Prod.fst).getD 0
  domains : ∀ e ∈ dynEdges edgeMeta path, ∃ em, edgeMeta e.1 = some em ∧ plan.domain = em.domain
  noDomain : dynEdges edgeMeta path = [] → plan.domain = 0

/-- The steps, in order, multiply to the product of the path's edges; the derived
    fields are the path's. -/
theorem foldInto_spec {generation : ℕ} {ts ss : List ℕ} {plan : Plan G}
    (h : foldInto edgeMeta generation ts ss = .ok plan) :
    PlanOf edgeMeta (foldEdges ts ss) plan := by
  obtain ⟨st, hrun, h⟩ := except_bind_eq_ok.mp h
  by_cases hn : st.n > maxDepth
  · rw [if_pos hn] at h
    cases h
  · rw [if_neg hn] at h
    cases h
    have hn := not_lt.mp hn
    have hinv := foldPath_spec .init hrun
    rw [List.nil_append] at hinv
    refine ⟨fun pose => ?_, hinv.dyns hn, hinv.count, hinv.first, ?_, ?_⟩
    · rw [foldPoses_eq_prod, foldPoses_eq_prod]
      exact hinv.value hn pose
    · intro e he
      obtain ⟨em, hmeta, hdom⟩ := hinv.domains e he
      exact ⟨em, hmeta, by rw [hdom]; rfl⟩
    · intro hnil
      show st.domain.getD 0 = 0
      rw [hinv.noDomain hnil]
      rfl

/-- The declared transform of an edge: its static pose, or the pose it is assigned. -/
def edgePose (edgeMeta : EdgeId → Option (EdgeMeta G)) (pose : EdgeId → G) (edge : EdgeId) : G :=
  match edgeMeta edge with
  | none => pose edge
  | some em => if em.kind = .static then em.staticPose else pose edge

/-- The product of the edges climbed from a frame, from the top down. -/
def pathPose (edgeMeta : EdgeId → Option (EdgeMeta G)) (pose : EdgeId → G) (es : List ℕ) : G :=
  (es.reverse.map (edgePose edgeMeta pose)).prod

theorem factor_resolve (pose : EdgeId → G) (edge : EdgeId) (inverted : Bool) :
    (resolve edgeMeta (edge, inverted)).factor pose =
      if inverted then (edgePose edgeMeta pose edge)⁻¹ else edgePose edgeMeta pose edge := by
  unfold resolve edgePose
  cases edgeMeta edge with
  | none => rfl
  | some em => by_cases h : em.kind = .static <;> simp [h, Step.factor]

/-- The unmerged path: up from the target, down to the source. -/
theorem foldPoses_foldEdges (pose : EdgeId → G) (ts ss : List ℕ) :
    foldPoses pose ((foldEdges ts ss).map (resolve edgeMeta)) =
      (pathPose edgeMeta pose ts)⁻¹ * pathPose edgeMeta pose ss := by
  have hup : ((ts.map (·, true)).map (resolve edgeMeta)).map (Step.factor pose) =
      (ts.map (edgePose edgeMeta pose)).map (·⁻¹) := by
    simp only [List.map_map]
    refine List.map_congr_left fun e _ => ?_
    simp [factor_resolve]
  have hdown : ((ss.reverse.map (·, false)).map (resolve edgeMeta)).map (Step.factor pose) =
      ss.reverse.map (edgePose edgeMeta pose) := by
    simp only [List.map_map]
    refine List.map_congr_left fun e _ => ?_
    simp [factor_resolve]
  have hrev :
    (pathPose edgeMeta pose ts)⁻¹ = ((ts.map (edgePose edgeMeta pose)).map (·⁻¹)).prod := by
    rw [pathPose, List.prod_inv_reverse, List.map_reverse, List.map_reverse, List.reverse_reverse]
  rw [foldPoses_eq_prod, foldEdges, List.map_append, List.map_append, List.prod_append, hup, hdown,
    hrev]
  rfl

theorem PlanOf.meaning {ts ss : List ℕ} {plan : Plan G}
    (h : PlanOf edgeMeta (foldEdges ts ss) plan) (pose : EdgeId → G) :
    foldPoses pose plan.steps = (pathPose edgeMeta pose ts)⁻¹ * pathPose edgeMeta pose ss := by
  rw [h.merged, foldPoses_foldEdges]

/-- A compiled plan is one for the path through the lowest common ancestor. -/
theorem compile_planOf {topo : TopologyView} {target source : FrameId} {plan : Plan G}
    (hf : topo.IsForest) (h : compile edgeMeta topo target source = .ok plan) :
    ∃ m ts ss, IsLca topo target source m ∧ Climbs topo target ts m ∧ Climbs topo source ss m ∧
      PlanOf edgeMeta (foldEdges ts ss) plan ∧ (foldEdges ts ss).length ≤ maxPathEdges := by
  unfold compile at h
  by_cases heq : target = source
  · rw [if_pos heq] at h
    cases h
    subst heq
    refine ⟨target, [], [], ⟨⟨[], .refl _⟩, ⟨[], .refl _⟩, fun c hc _ => hc⟩, .refl _, .refl _,
      ⟨fun _ => rfl, rfl, rfl, rfl, ?_, fun _ => rfl⟩, Nat.zero_le _⟩
    intro e he
    cases he
  · rw [if_neg heq] at h
    obtain ⟨⟨ts, ss⟩, hwalk, h⟩ := except_bind_eq_ok.mp h
    obtain ⟨m, ht, hs, hlca, hlen⟩ := walk_spec hf hwalk
    exact ⟨m, ts, ss, hlca, ht, hs, foldInto_spec h, by simpa [foldEdges] using hlen⟩

/-- **Main theorem.** A compiled plan folds to `P_target⁻¹ * P_source`, each the product
    of the declared transforms from the lowest common ancestor down to that frame.
    Merging static edges changes nothing, and the derived fields are the path's. -/
theorem compile_meaning {topo : TopologyView} {target source : FrameId} {plan : Plan G}
    (hf : topo.IsForest) (h : compile edgeMeta topo target source = .ok plan) :
    ∃ m ts ss, IsLca topo target source m ∧ Climbs topo target ts m ∧ Climbs topo source ss m ∧
      (∀ pose, foldPoses pose plan.steps =
        (pathPose edgeMeta pose ts)⁻¹ * pathPose edgeMeta pose ss) ∧
      PlanOf edgeMeta (foldEdges ts ss) plan ∧
      plan.dynCount = (dynEdges edgeMeta (foldEdges ts ss)).length := by
  obtain ⟨m, ts, ss, hlca, ht, hs, hplan, hlen⟩ := compile_planOf hf h
  have hshort : (dynEdges edgeMeta (foldEdges ts ss)).length ≤ maxPathEdges :=
    (List.length_filterMap_le _ _).trans hlen
  refine ⟨m, ts, ss, hlca, ht, hs, hplan.meaning, hplan, ?_⟩
  rw [hplan.count]
  unfold maxPathEdges at hshort
  omega

end FoldSpec

/-! ## A concrete tree -/

/-- Two branches below frame `1`: `1 → 2 → 3` and `1 → 4 → 5`, each a static edge and
    then a dynamic one. -/
def branches : TopologyView where
  generation := 7
  active := 0
  blocks := fun _ =>
    { parent := fun f => [0, 0, 1, 2, 1, 4].getD f 0
      edgeOfChild := fun f => [0, 0, 1, 2, 3, 4].getD f 0
      depth := fun f => [0, 0, 1, 2, 1, 2].getD f 0 }
  maxFrames := 6

/-- Edges `1` and `3` are static, a swap of two points each. -/
def branchEdges : EdgeId → Option (EdgeMeta (Equiv.Perm (Fin 3)))
  | 1 => some ⟨.static, 0, Equiv.swap 0 1⟩
  | 2 => some ⟨.dynamic, 5, 1⟩
  | 3 => some ⟨.static, 0, Equiv.swap 1 2⟩
  | 4 => some ⟨.dynamic, 5, 1⟩
  | _ => none

theorem branches_isForest : branches.IsForest := by
  refine ⟨fun f => [0, 0, 1, 2, 1, 2].getD f 0, fun f hf => ?_⟩
  have hlt : (f : ℕ) < 6 := hf
  have hall : ∀ i < 6, branches.block.depth i = min 65535 ([0, 0, 1, 2, 1, 2].getD i 0) ∧
      (branches.block.parent i = 0 → [0, 0, 1, 2, 1, 2].getD i 0 = 0) ∧
      (branches.block.parent i ≠ 0 → [0, 0, 1, 2, 1, 2].getD i 0 =
        [0, 0, 1, 2, 1, 2].getD (branches.block.parent i) 0 + 1) := by decide
  exact hall f hlt

/-- The plan from frame `5` to frame `3`: the two static edges are one step. -/
def branchPlan : Plan (Equiv.Perm (Fin 3)) where
  generation := 7
  steps := [.dyn 2 true, .static ((Equiv.swap 0 1)⁻¹ * Equiv.swap 1 2), .dyn 4 false]
  domain := 5
  dynCount := 2
  firstDyn := 2
  steps_le := by decide

theorem compile_meaning_branches :
    ∃ m ts ss, IsLca branches 3 5 m ∧ Climbs branches 3 ts m ∧ Climbs branches 5 ss m ∧
      (∀ pose, foldPoses pose branchPlan.steps =
        (pathPose branchEdges pose ts)⁻¹ * pathPose branchEdges pose ss) ∧
      PlanOf branchEdges (foldEdges ts ss) branchPlan ∧
      branchPlan.dynCount = (dynEdges branchEdges (foldEdges ts ss)).length :=
  compile_meaning branches_isForest rfl

end TfTree
