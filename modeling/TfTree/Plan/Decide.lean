import TfTree.Plan.Compile
import TfTree.Topo.SetParent

/-!
# When a path compiles

For which frames of a built topology `compile` (`tf_tree_core/src/plan.rs`) returns a
plan, and what its errors say about the path.

The stored depths are capped to a `u16`. Between two frames at different distances
from their roots, both at least `65535`, the walk starts in lockstep and misses their
common ancestor.

Results:
* `foldInto_outcome`: what the fold checks of a path.
* `walk_total`: the walk between frames whose depths can be told apart.
* `walk_saturated`: the walk between frames whose depths cannot.
* `compile_right_iff`: the exact condition under which `compile` answers rightly.
-/

namespace TfTree

open Conc

variable {P : Type}

/-! ## The conditions on a path -/

/-- The edge has a record, and it is static. -/
def isStatic (edgeMeta : EdgeId → Option (EdgeMeta P)) (edge : EdgeId) : Bool :=
  match edgeMeta edge with
  | some em => em.kind = .static
  | none => false

/-- The edge has a record, it is not static, and its domain is `d`. -/
def HasDomain (edgeMeta : EdgeId → Option (EdgeMeta P)) (edge : EdgeId) (d : ℕ) : Prop :=
  ∃ em, edgeMeta edge = some em ∧ em.kind ≠ .static ∧ em.domain = d

/-- The number of steps of a path: its edges, without the static ones that follow a
    static one. `prev` tells whether the path so far ends with a static edge. -/
def foldedLength : Bool → List Bool → ℕ
  | _, [] => 0
  | prev, static :: rest => (if static && prev then 0 else 1) + foldedLength static rest

/-- The path can be folded into a plan. -/
structure Foldable (edgeMeta : EdgeId → Option (EdgeMeta P)) (path : List EdgeId) : Prop where
  known : ∀ e ∈ path, edgeMeta e ≠ none
  oneDomain : ∀ e ∈ path, ∀ e' ∈ path, ∀ d d', HasDomain edgeMeta e d → HasDomain edgeMeta e' d' →
    d = d'
  short : foldedLength false (path.map (isStatic edgeMeta)) ≤ maxDepth

/-- What an error of the fold says about the path. -/
def FoldFailure (edgeMeta : EdgeId → Option (EdgeMeta P)) (path : List EdgeId) :
    LookupError → Prop
  | .unknownEdge e => e ∈ path ∧ edgeMeta e = none
  | .mixedTimeDomains e expected got => e ∈ path ∧ HasDomain edgeMeta e got ∧ expected ≠ got ∧
      ∃ e' ∈ path, HasDomain edgeMeta e' expected
  | .treeTooDeep n => n = foldedLength false (path.map (isStatic edgeMeta)) ∧ maxDepth < n
  | _ => False

section Fold

variable [Mul P] [Inv P] {edgeMeta : EdgeId → Option (EdgeMeta P)} {st st' : FoldState P}
  {path : List (EdgeId × Bool)} {edge : EdgeId} {inverted : Bool}

omit [Inv P] in
theorem FoldState.pushStatic_n (st : FoldState P) (cur : P) :
    (st.pushStatic cur).n = st.n + (if st.lastStatic then 0 else 1) ∧
      (st.pushStatic cur).lastStatic = true ∧ (st.pushStatic cur).domain = st.domain := by
  unfold FoldState.pushStatic
  by_cases hlast : st.lastStatic = true
  · rw [if_pos hlast, if_pos hlast]
    by_cases hn : st.n ≤ maxDepth
    · rw [if_pos hn]
      match st.out[st.n - 1]? with
      | none => exact ⟨rfl, hlast, rfl⟩
      | some (.static prev) => exact ⟨rfl, hlast, rfl⟩
      | some (.dyn e i) => exact ⟨rfl, hlast, rfl⟩
    · rw [if_neg hn]
      exact ⟨rfl, hlast, rfl⟩
  · rw [if_neg hlast, if_neg hlast]
    exact ⟨rfl, rfl, rfl⟩

/-- The domain the fold has fixed, after one more edge. -/
structure DomainStep (edgeMeta : EdgeId → Option (EdgeMeta P)) (edge : EdgeId)
    (dom dom' : Option ℕ) : Prop where
  keeps : ∀ d, dom = some d → dom' = some d
  fixes : ∀ d, HasDomain edgeMeta edge d → dom' = some d
  source : ∀ d, dom' = some d → dom = some d ∨ HasDomain edgeMeta edge d

/-- One iteration of the fold: the edge has no record, its domain is another one, or
    it is counted. -/
theorem foldStep_cases (edgeMeta : EdgeId → Option (EdgeMeta P)) (st : FoldState P)
    (edge : EdgeId) (inverted : Bool) :
    (edgeMeta edge = none ∧ foldStep edgeMeta st edge inverted = .error (.unknownEdge edge)) ∨
    (∃ d d', st.domain = some d ∧ HasDomain edgeMeta edge d' ∧ d ≠ d' ∧
      foldStep edgeMeta st edge inverted = .error (.mixedTimeDomains edge d d')) ∨
    (∃ st', foldStep edgeMeta st edge inverted = .ok st' ∧ edgeMeta edge ≠ none ∧
      st'.n = st.n + (if isStatic edgeMeta edge && st.lastStatic then 0 else 1) ∧
      st'.lastStatic = isStatic edgeMeta edge ∧
      DomainStep edgeMeta edge st.domain st'.domain) := by
  unfold foldStep isStatic
  cases hmeta : edgeMeta edge with
  | none => exact .inl ⟨rfl, rfl⟩
  | some em =>
    by_cases hkind : em.kind = .static
    · obtain ⟨hn, hlast, hdom⟩ := st.pushStatic_n (if inverted then em.staticPose⁻¹
        else em.staticPose)
      refine .inr (.inr ⟨_, if_pos hkind, by simp, ?_, ?_, ?_⟩)
      · simp [hn, hkind]
      · simp [hlast, hkind]
      · rw [hdom]
        refine ⟨fun _ h => h, fun d h => ?_, fun _ h => .inl h⟩
        obtain ⟨em', he, hne, -⟩ := h
        cases hmeta.symm.trans he
        exact absurd hkind hne
    have hdomain : HasDomain edgeMeta edge em.domain := ⟨em, hmeta, hkind, rfl⟩
    have hunique : ∀ d, HasDomain edgeMeta edge d → d = em.domain := by
      rintro d ⟨em', he, -, rfl⟩
      cases hmeta.symm.trans he
      rfl
    simp only [if_neg hkind]
    cases hd : st.domain with
    | none =>
      refine .inr (.inr ⟨_, rfl, by simp, ?_, ?_, ?_⟩)
      · simp [hkind, FoldState.append]
      · simp [hkind, FoldState.append]
      · refine ⟨fun _ h => (by cases h), fun d h => congrArg some (hunique d h).symm, fun d h => ?_⟩
        cases h
        exact .inr hdomain
    | some d =>
      by_cases hne : d ≠ em.domain
      · refine .inr (.inl ⟨d, em.domain, rfl, hdomain, hne, ?_⟩)
        simp only [if_pos hne]
      · obtain rfl := not_not.mp hne
        refine .inr (.inr ⟨st.append (.dyn edge inverted), by simp only [if_neg hne], by simp,
          ?_, ?_, ?_⟩)
        · simp [hkind, FoldState.append]
        · simp [hkind, FoldState.append]
        · have hkeep : (st.append (.dyn edge inverted)).domain = some em.domain := hd
          rw [hkeep]
          exact ⟨fun _ h => h, fun d h => congrArg some (hunique d h).symm, fun _ h => .inl h⟩

/-- The loop of the fold, started anywhere. -/
theorem foldPath_cases (edgeMeta : EdgeId → Option (EdgeMeta P)) (path : List (EdgeId × Bool))
    (st : FoldState P) :
    (∃ e ∈ path.map Prod.fst, edgeMeta e = none ∧
      foldPath edgeMeta st path = .error (.unknownEdge e)) ∨
    (∃ e ∈ path.map Prod.fst, ∃ d d', HasDomain edgeMeta e d' ∧ d ≠ d' ∧
      (st.domain = some d ∨ ∃ e' ∈ path.map Prod.fst, HasDomain edgeMeta e' d) ∧
      foldPath edgeMeta st path = .error (.mixedTimeDomains e d d')) ∨
    (∃ st', foldPath edgeMeta st path = .ok st' ∧ (∀ e ∈ path.map Prod.fst, edgeMeta e ≠ none) ∧
      st'.n = st.n + foldedLength st.lastStatic ((path.map Prod.fst).map (isStatic edgeMeta)) ∧
      (∀ d, st.domain = some d → st'.domain = some d) ∧
      ∀ e ∈ path.map Prod.fst, ∀ d, HasDomain edgeMeta e d → st'.domain = some d) := by
  induction path generalizing st with
  | nil => exact .inr (.inr ⟨st, rfl, by simp, rfl, fun _ h => h, by simp⟩)
  | cons e path ih =>
    rw [foldPath, List.map_cons]
    rcases foldStep_cases edgeMeta st e.1 e.2 with ⟨hnone, hstep⟩ |
      ⟨d, d', hd, hdom, hne, hstep⟩ | ⟨st1, hstep, hknown, hn, hlast, hdom⟩
    · rw [hstep]
      exact .inl ⟨e.1, List.mem_cons_self, hnone, rfl⟩
    · rw [hstep]
      exact .inr (.inl ⟨e.1, List.mem_cons_self, d, d', hdom, hne, .inl hd, rfl⟩)
    rw [hstep]
    rcases ih st1 with ⟨e', he', hnone, hrun⟩ | ⟨e', he', d, d', hdom', hne, hsource, hrun⟩ |
      ⟨st', hrun, hknown', hn', hkeep, hall⟩
    · exact .inl ⟨e', List.mem_cons_of_mem _ he', hnone, hrun⟩
    · refine .inr (.inl ⟨e', List.mem_cons_of_mem _ he', d, d', hdom', hne, ?_, hrun⟩)
      -- the domain came from before the path, or from an edge of it
      rcases hsource with hd | ⟨e'', he'', hd⟩
      · exact (hdom.source d hd).imp_right fun h => ⟨e.1, List.mem_cons_self, h⟩
      · exact .inr ⟨e'', List.mem_cons_of_mem _ he'', hd⟩
    · refine .inr (.inr ⟨st', hrun, ?_, ?_, fun d h => hkeep d (hdom.keeps d h), ?_⟩)
      · exact List.forall_mem_cons.mpr ⟨hknown, hknown'⟩
      · rw [hn', hn, hlast, List.map_cons, foldedLength, Nat.add_assoc]
      · intro e' he' d hd
        rcases List.mem_cons.mp he' with rfl | he'
        · exact hkeep d (hdom.fixes d hd)
        · exact hall e' he' d hd

/-- The fold of a path succeeds exactly when the path is foldable; an error says what
    is wrong with it. -/
theorem foldInto_outcome (edgeMeta : EdgeId → Option (EdgeMeta P)) (generation : ℕ)
    (ts ss : List EdgeId) :
    (∃ plan, foldInto edgeMeta generation ts ss = .ok plan ∧
      Foldable edgeMeta (ts ++ ss.reverse)) ∨
    (∃ e, foldInto edgeMeta generation ts ss = .error e ∧
      FoldFailure edgeMeta (ts ++ ss.reverse) e ∧ ¬ Foldable edgeMeta (ts ++ ss.reverse)) := by
  have hpath : (foldEdges ts ss).map Prod.fst = ts ++ ss.reverse := by
    simp [foldEdges, Function.comp_def]
  unfold foldInto
  rcases foldPath_cases edgeMeta (foldEdges ts ss) .init with ⟨e, he, hnone, hrun⟩ |
    ⟨e, he, d, d', hdom, hne, hsource, hrun⟩ | ⟨st', hrun, hknown, hn, -, hall⟩
  · rw [hpath] at he
    rw [hrun]
    exact .inr ⟨_, rfl, ⟨he, hnone⟩, fun h => h.known e he hnone⟩
  · rw [hpath] at he hsource
    rw [hrun]
    obtain ⟨e', he', hd⟩ := hsource.resolve_left fun h => by cases h
    exact .inr ⟨_, rfl, ⟨he, hdom, hne, e', he', hd⟩,
      fun h => hne (h.oneDomain e' he' e he d d' hd hdom)⟩
  · rw [hpath] at hknown hn hall
    have hn : st'.n = foldedLength false ((ts ++ ss.reverse).map (isStatic edgeMeta)) := by
      rw [hn]
      exact Nat.zero_add _
    rw [hrun]
    by_cases hgt : st'.n > maxDepth
    · refine .inr ⟨.treeTooDeep st'.n, if_pos hgt, ⟨hn, hgt⟩, fun h => ?_⟩
      have hshort := h.short
      omega
    · refine .inl ⟨_, if_neg hgt, hknown, fun e he e' he' d d' hd hd' => ?_, by omega⟩
      have h1 := hall e he d hd
      rw [hall e' he' d' hd'] at h1
      exact (Option.some_inj.mp h1).symm

end Fold

/-! ## The walk in a forest -/

/-- The links of a built topology: `dist` is the distance from the root, capped in the
    stored depths, and every link carries an edge. -/
structure TopologyView.Linked (topo : TopologyView) (dist : ℕ → ℕ) : Prop where
  depth : ∀ f : FrameId, (f : ℕ) < topo.maxFrames → topo.block.depth f = min 65535 (dist f)
  root : ∀ f : FrameId, (f : ℕ) < topo.maxFrames → topo.block.parent f = 0 → dist f = 0
  step : ∀ f : FrameId, (f : ℕ) < topo.maxFrames → topo.block.parent f ≠ 0 →
    dist f = dist (topo.block.parent f) + 1
  lt : ∀ f : FrameId, (f : ℕ) < topo.maxFrames → topo.block.parent f < topo.maxFrames
  edge : ∀ f : FrameId, (f : ℕ) < topo.maxFrames → topo.block.parent f ≠ 0 →
    topo.block.edgeOfChild f ≠ 0

/-- What `read` returns for a frame in range. -/
def cursorAt (topo : TopologyView) (f : FrameId) : Cursor :=
  ⟨f, topo.block.parent f, topo.block.depth f, topo.block.edgeOfChild f⟩

/-- Two frames climb in lockstep until they meet (`none`), or until one of them is a
    root; then the frame the first one reached is recorded. -/
inductive Lockstep (topo : TopologyView) :
    FrameId → FrameId → List ℕ → List ℕ → Option FrameId → Prop
  | met (f : FrameId) : Lockstep topo f f [] [] none
  | parted {a b : FrameId} : a ≠ b → topo.block.parent a = 0 ∨ topo.block.parent b = 0 →
      Lockstep topo a b [] [] (some a)
  | step {a b a' b' : FrameId} {ts ss : List ℕ} {o : Option FrameId} : a ≠ b →
      (a : ℕ) < topo.maxFrames → (b : ℕ) < topo.maxFrames → topo.block.parent a = a' →
      topo.block.parent b = b' → Lockstep topo a' b' ts ss o →
      Lockstep topo a b (topo.block.edgeOfChild a :: ts) (topo.block.edgeOfChild b :: ss) o

/-- The edges between two frames: up to their lowest common ancestor, or without one
    up to their two roots; then the target's root is recorded. -/
def Route (topo : TopologyView) (target source : FrameId) (ts ss : List ℕ) :
    Option FrameId → Prop
  | none => ∃ m, IsLca topo target source m ∧ Climbs topo target ts m ∧ Climbs topo source ss m
  | some r => Climbs topo target ts r ∧ topo.block.parent r = 0 ∧
      (∃ r', Climbs topo source ss r' ∧ topo.block.parent r' = 0) ∧
      ¬ ∃ c, Anc topo target c ∧ Anc topo source c

/-- What the walk returns for a route, when the buffers hold it. -/
def routeResult (target source : FrameId) (ts ss : List ℕ) :
    Option FrameId → Except LookupError (List ℕ × List ℕ)
  | none => .ok (ts, ss)
  | some r => .error (.disconnected target source r)

section Walk

variable {topo : TopologyView} {dist : ℕ → ℕ} {target source a b c f g m : FrameId}
  {es us vs ts ss : List ℕ} {o : Option FrameId} {goal budget : ℕ}

theorem read_cursorAt (hf : (f : ℕ) < topo.maxFrames) : read topo f = .ok (cursorAt topo f) :=
  read_eq_ok.mpr ⟨hf, rfl⟩

theorem frameOrDisconnect_of_eq {parent : ℕ} (h : parent = (g : ℕ)) :
    frameOrDisconnect target source parent f = .ok g :=
  frameOrDisconnect_eq_ok.mpr h.symm

theorem TopologyView.Linked.climbs_dist (hl : topo.Linked dist) (h : Climbs topo f es g) :
    dist f = dist g + es.length := h.dist hl.step

/-- A walk does not leave the frames. -/
theorem TopologyView.Linked.climbs_lt (hl : topo.Linked dist) (h : Climbs topo f es g)
    (hf : (f : ℕ) < topo.maxFrames) : (g : ℕ) < topo.maxFrames := by
  induction h with
  | refl => exact hf
  | step hlt hp _ ih => exact ih (hp ▸ hl.lt _ hlt)

/-- The loop does not start at a frame that is not deeper. -/
theorem climb_stay {cur : Cursor} (h : cur.depth ≤ goal) :
    climb topo target source goal budget cur = .ok ([], cur, budget) := by
  cases budget <;> rw [climb, if_neg (by omega)]

/-- The loop climbs to the frame at the goal, unless the buffers are full before. -/
theorem climb_total (hl : topo.Linked dist) (hgoal : goal < 65535) (h : Climbs topo f es g)
    (hf : (f : ℕ) < topo.maxFrames) (hg : dist g = goal) :
    climb topo target source goal budget (cursorAt topo f) =
      if es.length ≤ budget then .ok (es, cursorAt topo g, budget - es.length)
      else .error (.treeTooDeep (maxPathEdges + 1)) := by
  induction h generalizing budget with
  | refl f =>
    have hdepth : (cursorAt topo f).depth = min 65535 (dist f) := hl.depth f hf
    rw [climb_stay (by omega), if_pos (by simp)]
    rfl
  | @step f f' g es hlt hp hes ih =>
    have hpar : topo.block.parent f ≠ 0 := by
      rw [hp]
      exact PNat.ne_zero f'
    have hf' : (f' : ℕ) < topo.maxFrames := hp ▸ hl.lt f hf
    have hdist := hl.climbs_dist (.step hlt hp hes)
    have hdepth : (cursorAt topo f).depth = min 65535 (dist f) := hl.depth f hf
    rw [List.length_cons] at hdist ⊢
    cases budget with
    | zero =>
      rw [climb, if_pos (by omega), if_neg (by omega)]
    | succ budget =>
      have hedge : (cursorAt topo f).edge ≠ 0 := hl.edge f hf hpar
      have hparent : frameOrDisconnect target source (cursorAt topo f).parent
          (cursorAt topo f).frame = .ok f' := frameOrDisconnect_of_eq hp
      rw [climb, if_pos (by omega), if_neg hedge]
      simp only [bind, Except.bind, hparent, read_cursorAt hf', ih hf' hg]
      by_cases hle : es.length ≤ budget
      · rw [if_pos hle, if_pos (by omega)]
        simp only [pure, Except.pure, cursorAt]
        congr 3
        omega
      · rw [if_neg hle, if_neg (by omega)]

/-- The lockstep walk, unless the buffers are full before. -/
theorem meet_total (hl : topo.Linked dist) (h : Lockstep topo a b ts ss o) :
    meet topo target source budget (cursorAt topo a) (cursorAt topo b) =
      if ts.length + ss.length ≤ budget then routeResult target source ts ss o
      else .error (.treeTooDeep (maxPathEdges + 1)) := by
  induction h generalizing budget with
  | met f =>
    rw [meet.eq_def, if_pos rfl, if_pos (by simp)]
    rfl
  | @parted a b hne hroot =>
    have hroot' : (cursorAt topo a).parent = 0 ∨ (cursorAt topo b).parent = 0 := hroot
    have hne' : (cursorAt topo a).frame ≠ (cursorAt topo b).frame := hne
    rw [meet.eq_def, if_neg hne', if_pos hroot', if_pos (by simp)]
    rfl
  | @step a b a' b' ts ss o hne ha hb hpa hpb _ ih =>
    have hpar : topo.block.parent a ≠ 0 := by
      rw [hpa]
      exact PNat.ne_zero a'
    have hpar' : topo.block.parent b ≠ 0 := by
      rw [hpb]
      exact PNat.ne_zero b'
    have hea : (cursorAt topo a).edge ≠ 0 := hl.edge a ha hpar
    have heb : (cursorAt topo b).edge ≠ 0 := hl.edge b hb hpar'
    have hroot : ¬ ((cursorAt topo a).parent = 0 ∨ (cursorAt topo b).parent = 0) :=
      not_or.mpr ⟨hpar, hpar'⟩
    have hne' : (cursorAt topo a).frame ≠ (cursorAt topo b).frame := hne
    rw [meet.eq_def, if_neg hne', if_neg hroot, List.length_cons, List.length_cons]
    rcases budget with _ | _ | budget
    · rw [if_neg (show ¬ ts.length + 1 + (ss.length + 1) ≤ 0 by omega)]
    · dsimp only
      rw [if_neg hea, if_neg (by omega)]
    · have ha' : (a' : ℕ) < topo.maxFrames := hpa ▸ hl.lt a ha
      have hb' : (b' : ℕ) < topo.maxFrames := hpb ▸ hl.lt b hb
      have hfa : frameOrDisconnect target source (cursorAt topo a).parent
          (cursorAt topo a).frame = .ok a' := frameOrDisconnect_of_eq hpa
      have hfb : frameOrDisconnect target source (cursorAt topo b).parent
          (cursorAt topo b).frame = .ok b' := frameOrDisconnect_of_eq hpb
      dsimp only
      rw [if_neg hea, if_neg heb]
      simp only [bind, Except.bind, hfa, hfb, read_cursorAt ha', read_cursorAt hb',
        ih]
      by_cases hle : ts.length + ss.length ≤ budget
      · rw [if_pos hle, if_pos (by omega)]
        cases o <;> rfl
      · rw [if_neg hle, if_neg (by omega)]

/-- Lockstep from two frames always ends. -/
theorem exists_lockstep (hl : topo.Linked dist) (ha : (a : ℕ) < topo.maxFrames)
    (hb : (b : ℕ) < topo.maxFrames) : ∃ ts ss o, Lockstep topo a b ts ss o := by
  induction hn : dist a generalizing a b with
  | zero =>
    by_cases hab : a = b
    · subst hab
      exact ⟨[], [], none, .met a⟩
    · have hroot : topo.block.parent a = 0 := by
        by_contra hpar
        have hstep := hl.step a ha hpar
        omega
      exact ⟨[], [], some a, .parted hab (.inl hroot)⟩
  | succ n ih =>
    by_cases hab : a = b
    · subst hab
      exact ⟨[], [], none, .met a⟩
    by_cases hroot : topo.block.parent a = 0 ∨ topo.block.parent b = 0
    · exact ⟨[], [], some a, .parted hab hroot⟩
    obtain ⟨hpa, hpb⟩ := not_or.mp hroot
    obtain ⟨a', ha'⟩ : ∃ a' : FrameId, topo.block.parent a = a' :=
      ⟨⟨_, Nat.pos_of_ne_zero hpa⟩, rfl⟩
    obtain ⟨b', hb'⟩ : ∃ b' : FrameId, topo.block.parent b = b' :=
      ⟨⟨_, Nat.pos_of_ne_zero hpb⟩, rfl⟩
    have hstep := hl.step a ha hpa
    rw [ha'] at hstep
    obtain ⟨ts, ss, o, hlock⟩ := ih (ha' ▸ hl.lt a ha) (hb' ▸ hl.lt b hb) (by omega)
    exact ⟨_, _, o, .step hab ha hb ha' hb' hlock⟩

/-- Frames at one distance meet at their lowest common ancestor, or are in two trees. -/
theorem Lockstep.route (hl : topo.Linked dist) (h : Lockstep topo a b ts ss o)
    (ha : (a : ℕ) < topo.maxFrames) (hb : (b : ℕ) < topo.maxFrames) (hd : dist a = dist b) :
    Route topo a b ts ss o := by
  induction h with
  | met f => exact ⟨f, ⟨⟨[], .refl f⟩, ⟨[], .refl f⟩, fun _ h _ => h⟩, .refl f, .refl f⟩
  | @parted a b hne hroot =>
    -- a root at one side is a root at the other
    have hroots : topo.block.parent a = 0 ∧ topo.block.parent b = 0 := by
      refine ⟨?_, ?_⟩
      · by_contra hpa
        have hstep := hl.step a ha hpa
        have hzero := hl.root b hb (hroot.resolve_left hpa)
        omega
      · by_contra hpb
        have hstep := hl.step b hb hpb
        have hzero := hl.root a ha (hroot.resolve_right hpb)
        omega
    refine ⟨.refl a, hroots.1, ⟨b, .refl b, hroots.2⟩, ?_⟩
    rintro ⟨c, ⟨us, hus⟩, ⟨vs, hvs⟩⟩
    cases hus with
    | refl =>
      cases hvs with
      | refl => exact hne rfl
      | step _ hp _ => exact PNat.ne_zero _ (hp.symm.trans hroots.2)
    | step _ hp _ => exact PNat.ne_zero _ (hp.symm.trans hroots.1)
  | @step a b a' b' ts ss o hne hlt hlt' hpa hpb hlock ih =>
    have hsa := hl.step a ha (by rw [hpa]; exact PNat.ne_zero a')
    have hsb := hl.step b hb (by rw [hpb]; exact PNat.ne_zero b')
    rw [hpa] at hsa
    rw [hpb] at hsb
    have hrec := ih (hpa ▸ hl.lt a ha) (hpb ▸ hl.lt b hb) (by omega)
    -- a common ancestor of both frames is one of both parents
    have hcommon : ∀ c, Anc topo a c → Anc topo b c → Anc topo a' c ∧ Anc topo b' c := by
      rintro c ⟨us, hus⟩ ⟨vs, hvs⟩
      have hdu := hl.climbs_dist hus
      have hdv := hl.climbs_dist hvs
      match us, vs with
      | [], [] => exact absurd (hus.eq_of_nil.trans hvs.eq_of_nil.symm) hne
      | [], _ :: _ => simp at hdu hdv; omega
      | _ :: _, [] => simp at hdu hdv; omega
      | _ :: us, _ :: vs =>
        obtain ⟨f, hf, hus'⟩ := hus.of_cons
        obtain ⟨g, hg, hvs'⟩ := hvs.of_cons
        obtain rfl := PNat.coe_injective (hf.symm.trans hpa)
        obtain rfl := PNat.coe_injective (hg.symm.trans hpb)
        exact ⟨hus'.anc, hvs'.anc⟩
    cases o with
    | none =>
      obtain ⟨m, ⟨hma, hmb, hmin⟩, hts, hss⟩ := hrec
      have hts' : Climbs topo a (topo.block.edgeOfChild a :: ts) m := .step hlt hpa hts
      have hss' : Climbs topo b (topo.block.edgeOfChild b :: ss) m := .step hlt' hpb hss
      refine ⟨m, ⟨hts'.anc, hss'.anc, fun c hca hcb => ?_⟩, hts', hss'⟩
      obtain ⟨hca', hcb'⟩ := hcommon c hca hcb
      exact hmin c hca' hcb'
    | some r =>
      obtain ⟨hts, hr, ⟨r', hss, hr'⟩, hnone⟩ := hrec
      refine ⟨.step hlt hpa hts, hr, ⟨r', .step hlt' hpb hss, hr'⟩, ?_⟩
      rintro ⟨c, hca, hcb⟩
      exact hnone ⟨c, hcommon c hca hcb⟩

/-- Frames at different distances never meet in lockstep. -/
theorem Lockstep.length_ge (hl : topo.Linked dist) (h : Lockstep topo a b ts ss o)
    (ha : (a : ℕ) < topo.maxFrames) (hb : (b : ℕ) < topo.maxFrames) (hd : dist a ≠ dist b) :
    min (dist a) (dist b) ≤ ts.length := by
  induction h with
  | met f => exact absurd rfl hd
  | @parted a b hne hroot =>
    rcases hroot with h0 | h0
    · have hzero := hl.root a ha h0
      omega
    · have hzero := hl.root b hb h0
      omega
  | @step a b a' b' ts ss o hne hlt hlt' hpa hpb hlock ih =>
    have hsa := hl.step a ha (by rw [hpa]; exact PNat.ne_zero a')
    have hsb := hl.step b hb (by rw [hpb]; exact PNat.ne_zero b')
    rw [hpa] at hsa
    rw [hpb] at hsb
    have hrec := ih (hpa ▸ hl.lt a ha) (hpb ▸ hl.lt b hb) (by omega)
    rw [List.length_cons]
    omega

/-- A frame has an ancestor at every distance below its own. -/
theorem exists_climb (hl : topo.Linked dist) (hf : (f : ℕ) < topo.maxFrames) {d : ℕ}
    (hd : d ≤ dist f) : ∃ es g, Climbs topo f es g ∧ dist g = d := by
  induction hn : dist f - d generalizing f with
  | zero => exact ⟨[], f, .refl f, by omega⟩
  | succ n ih =>
    have hpar : topo.block.parent f ≠ 0 := by
      intro h0
      have hzero := hl.root f hf h0
      omega
    obtain ⟨f', hf'⟩ : ∃ f' : FrameId, topo.block.parent f = f' :=
      ⟨⟨_, Nat.pos_of_ne_zero hpar⟩, rfl⟩
    have hstep := hl.step f hf hpar
    rw [hf'] at hstep
    obtain ⟨es, g, hes, hg⟩ := ih (hf' ▸ hl.lt f hf) (by omega) (by omega)
    exact ⟨_, g, .step hf hf' hes, hg⟩

/-- A climb of the target before the route. -/
theorem Route.climb_left (hl : topo.Linked dist) (h : Route topo g b ts ss o)
    (hes : Climbs topo a es g) (hd : dist g = dist b) : Route topo a b (es ++ ts) ss o := by
  -- a common ancestor is no deeper than `b`, so it is an ancestor of `g`
  have hanc : ∀ c, Anc topo a c → Anc topo b c → Anc topo g c := by
    rintro c ⟨us, hus⟩ ⟨vs, hvs⟩
    have hdu := hl.climbs_dist hus
    have hdv := hl.climbs_dist hvs
    have hde := hl.climbs_dist hes
    obtain ⟨us', rfl, hus'⟩ := hes.prefix hus (by omega)
    exact hus'.anc
  cases o with
  | none =>
    obtain ⟨m, ⟨hma, hmb, hmin⟩, hts, hss⟩ := h
    exact ⟨m, ⟨(hes.trans hts).anc, hmb, fun c hca hcb => hmin c (hanc c hca hcb) hcb⟩,
      hes.trans hts, hss⟩
  | some r =>
    obtain ⟨hts, hr, hsource, hnone⟩ := h
    refine ⟨hes.trans hts, hr, hsource, ?_⟩
    rintro ⟨c, hca, hcb⟩
    exact hnone ⟨c, hanc c hca hcb, hcb⟩

/-- A climb of the source before the route. -/
theorem Route.climb_right (hl : topo.Linked dist) (h : Route topo a g ts ss o)
    (hes : Climbs topo b es g) (hd : dist g = dist a) : Route topo a b ts (es ++ ss) o := by
  have hanc : ∀ c, Anc topo a c → Anc topo b c → Anc topo g c := by
    rintro c ⟨us, hus⟩ ⟨vs, hvs⟩
    have hdu := hl.climbs_dist hus
    have hdv := hl.climbs_dist hvs
    have hde := hl.climbs_dist hes
    obtain ⟨vs', rfl, hvs'⟩ := hes.prefix hvs (by omega)
    exact hvs'.anc
  cases o with
  | none =>
    obtain ⟨m, ⟨hma, hmb, hmin⟩, hts, hss⟩ := h
    exact ⟨m, ⟨hma, (hes.trans hss).anc, fun c hca hcb => hmin c hca (hanc c hca hcb)⟩,
      hts, hes.trans hss⟩
  | some r =>
    obtain ⟨hts, hr, ⟨r', hss, hr'⟩, hnone⟩ := h
    refine ⟨hts, hr, ⟨r', hes.trans hss, hr'⟩, ?_⟩
    rintro ⟨c, hca, hcb⟩
    exact hnone ⟨c, hca, hanc c hca hcb⟩

/-- There is a route between any two frames. -/
theorem exists_route (hl : topo.Linked dist) (ha : (a : ℕ) < topo.maxFrames)
    (hb : (b : ℕ) < topo.maxFrames) : ∃ ts ss o, Route topo a b ts ss o := by
  rcases Nat.le_total (dist a) (dist b) with hle | hle
  · obtain ⟨es, g, hes, hg⟩ := exists_climb hl hb hle
    have hglt := hl.climbs_lt hes hb
    obtain ⟨ts, ss, o, hlock⟩ := exists_lockstep hl ha hglt
    exact ⟨ts, es ++ ss, o, (hlock.route hl ha hglt hg.symm).climb_right hl hes hg⟩
  · obtain ⟨es, g, hes, hg⟩ := exists_climb hl ha hle
    have hglt := hl.climbs_lt hes ha
    obtain ⟨ts, ss, o, hlock⟩ := exists_lockstep hl hglt hb
    exact ⟨es ++ ts, ss, o, (hlock.route hl hglt hb hg).climb_left hl hes hg⟩

/-- The walk of `compile` from two frames in range. -/
theorem walk_eq (ha : (target : ℕ) < topo.maxFrames) (hb : (source : ℕ) < topo.maxFrames) :
    walk topo target source = (do
      let (ts, a', budget) ← climb topo target source (topo.block.depth source) maxPathEdges
        (cursorAt topo target)
      let (ss, b', budget) ← climb topo target source a'.depth budget (cursorAt topo source)
      let (ts', ss') ← meet topo target source budget a' b'
      return (ts ++ ts', ss ++ ss')) := by
  rw [walk]
  simp only [bind, Except.bind, read_cursorAt ha, read_cursorAt hb]
  rfl

/-- **Step lemma.** When the two depths can be told apart, the walk finds the route, or
    refuses one that is too long. -/
theorem walk_total (hl : topo.Linked dist) (ha : (target : ℕ) < topo.maxFrames)
    (hb : (source : ℕ) < topo.maxFrames)
    (hd : dist target = dist source ∨ dist target < 65535 ∨ dist source < 65535) :
    ∃ ts ss o, Route topo target source ts ss o ∧ walk topo target source =
      if ts.length + ss.length ≤ maxPathEdges then routeResult target source ts ss o
      else .error (.treeTooDeep (maxPathEdges + 1)) := by
  have hdt : (cursorAt topo target).depth = min 65535 (dist target) := hl.depth target ha
  have hds : (cursorAt topo source).depth = min 65535 (dist source) := hl.depth source hb
  have hds' : topo.block.depth source = min 65535 (dist source) := hl.depth source hb
  rw [walk_eq ha hb]
  rcases Nat.lt_trichotomy (dist target) (dist source) with hlt | heq | hgt
  · -- the source climbs
    obtain ⟨es, g, hes, hg⟩ := exists_climb hl hb (d := dist target) hlt.le
    have hglt := hl.climbs_lt hes hb
    obtain ⟨ts, ss, o, hlock⟩ := exists_lockstep hl ha hglt
    refine ⟨ts, es ++ ss, o, (hlock.route hl ha hglt hg.symm).climb_right hl hes hg, ?_⟩
    rw [climb_stay (by omega)]
    simp only [bind, Except.bind, List.length_append]
    rw [climb_total hl (by omega) hes hb (by omega)]
    by_cases hle : es.length ≤ maxPathEdges
    · rw [if_pos hle]
      simp only [meet_total hl hlock]
      by_cases hle' : ts.length + ss.length ≤ maxPathEdges - es.length
      · rw [if_pos hle', if_pos (by omega)]
        cases o <;> rfl
      · rw [if_neg hle', if_neg (by omega)]
    · rw [if_neg hle, if_neg (by omega)]
  · -- lockstep at once
    obtain ⟨ts, ss, o, hlock⟩ := exists_lockstep hl ha hb
    refine ⟨ts, ss, o, hlock.route hl ha hb heq, ?_⟩
    rw [climb_stay (by omega)]
    simp only [bind, Except.bind]
    rw [climb_stay (by omega)]
    simp only [meet_total hl hlock]
    by_cases hle : ts.length + ss.length ≤ maxPathEdges
    · rw [if_pos hle]
      cases o <;> rfl
    · rw [if_neg hle]
  · -- the target climbs
    obtain ⟨es, g, hes, hg⟩ := exists_climb hl ha (d := dist source) hgt.le
    have hglt := hl.climbs_lt hes ha
    have hdg : (cursorAt topo g).depth = min 65535 (dist g) := hl.depth g hglt
    obtain ⟨ts, ss, o, hlock⟩ := exists_lockstep hl hglt hb
    refine ⟨es ++ ts, ss, o, (hlock.route hl hglt hb hg).climb_left hl hes hg, ?_⟩
    rw [climb_total hl (by omega) hes ha (by omega), List.length_append]
    by_cases hle : es.length ≤ maxPathEdges
    · rw [if_pos hle]
      simp only [bind, Except.bind]
      rw [climb_stay (by omega)]
      simp only [meet_total hl hlock]
      by_cases hle' : ts.length + ss.length ≤ maxPathEdges - es.length
      · rw [if_pos hle', if_pos (by omega)]
        cases o <;> rfl
      · rw [if_neg hle', if_neg (by omega)]
    · rw [if_neg hle, if_neg (by omega)]
      rfl

/-- **Step lemma.** When they cannot, the walk refuses. -/
theorem walk_saturated (hl : topo.Linked dist) (ha : (target : ℕ) < topo.maxFrames)
    (hb : (source : ℕ) < topo.maxFrames) (hd : dist target ≠ dist source)
    (ht : 65535 ≤ dist target) (hs : 65535 ≤ dist source) :
    walk topo target source = .error (.treeTooDeep (maxPathEdges + 1)) := by
  have hdt : (cursorAt topo target).depth = min 65535 (dist target) := hl.depth target ha
  have hds : (cursorAt topo source).depth = min 65535 (dist source) := hl.depth source hb
  have hds' : topo.block.depth source = min 65535 (dist source) := hl.depth source hb
  obtain ⟨ts, ss, o, hlock⟩ := exists_lockstep hl ha hb
  have hlong := hlock.length_ge hl ha hb hd
  have hmax : ¬ ts.length + ss.length ≤ maxPathEdges := by
    unfold maxPathEdges
    omega
  rw [walk_eq ha hb, climb_stay (by omega)]
  simp only [bind, Except.bind]
  rw [climb_stay (by omega)]
  simp only [meet_total hl hlock, if_neg hmax]

/-- There is one climb to an ancestor. -/
theorem Climbs.unique (hl : topo.Linked dist) (h : Climbs topo f es g) (h' : Climbs topo f us g) :
    es = us := by
  have hd := hl.climbs_dist h
  have hd' := hl.climbs_dist h'
  obtain ⟨vs, rfl, -⟩ := h.prefix h' (by omega)
  rw [List.length_append] at hd'
  rw [List.eq_nil_of_length_eq_zero (show vs.length = 0 by omega), List.append_nil]

/-- There is one route. -/
theorem Route.unique (hl : topo.Linked dist) (h : Route topo a b ts ss none)
    (h' : Route topo a b us vs o) : us = ts ∧ vs = ss ∧ o = none := by
  obtain ⟨m, ⟨hma, hmb, hmin⟩, hts, hss⟩ := h
  cases o with
  | some r =>
    obtain ⟨-, -, -, hnone⟩ := h'
    exact absurd ⟨m, hma, hmb⟩ hnone
  | none =>
    obtain ⟨m', ⟨hma', hmb', hmin'⟩, hus, hvs⟩ := h'
    -- each is an ancestor of the other
    obtain ⟨ws, hws⟩ := hmin m' hma' hmb'
    obtain ⟨ws', hws'⟩ := hmin' m hma hmb
    have hd := hl.climbs_dist hws
    have hd' := hl.climbs_dist hws'
    have hnil : ws = [] := List.eq_nil_of_length_eq_zero (by omega)
    subst hnil
    obtain rfl := hws.eq_of_nil
    exact ⟨hus.unique hl hts, hvs.unique hl hss, rfl⟩

end Walk

/-! ## The answers of `compile` -/

/-- The two frames share a root, the path between them has at most `MAX_PATH_EDGES`
    edges, and it can be folded. -/
def Compiles (edgeMeta : EdgeId → Option (EdgeMeta P)) (topo : TopologyView)
    (target source : FrameId) : Prop :=
  ∃ ts ss, Route topo target source ts ss none ∧ ts.length + ss.length ≤ maxPathEdges ∧
    Foldable edgeMeta (ts ++ ss.reverse)

/-- The error names a condition that fails for the path. -/
def NamesFailure (edgeMeta : EdgeId → Option (EdgeMeta P)) (topo : TopologyView)
    (target source : FrameId) : LookupError → Prop
  | .frameOutOfRange f => (f = target ∨ f = source) ∧ topo.maxFrames ≤ f
  | .disconnected t s cutAt => t = target ∧ s = source ∧
      ∃ ts ss, Route topo target source ts ss (some cutAt)
  | .treeTooDeep n =>
      (n = maxPathEdges + 1 ∧ ∃ ts ss o, Route topo target source ts ss o ∧
        maxPathEdges < ts.length + ss.length) ∨
      ∃ ts ss, Route topo target source ts ss none ∧ ts.length + ss.length ≤ maxPathEdges ∧
        FoldFailure edgeMeta (ts ++ ss.reverse) (.treeTooDeep n)
  | e => ∃ ts ss, Route topo target source ts ss none ∧ FoldFailure edgeMeta (ts ++ ss.reverse) e

/-- `Ok` exactly for a path that can be compiled, and errors that name what fails. -/
def AnswersRight (edgeMeta : EdgeId → Option (EdgeMeta P)) (topo : TopologyView)
    (target source : FrameId) : Except LookupError (Plan P) → Prop
  | .ok _ => Compiles edgeMeta topo target source
  | .error e => ¬ Compiles edgeMeta topo target source ∧
      NamesFailure edgeMeta topo target source e

/-- Both frames are too far from their roots for their stored depths to differ, though
    they do, and close to each other. -/
def Blind (topo : TopologyView) (dist : ℕ → ℕ) (target source : FrameId) : Prop :=
  (target : ℕ) < topo.maxFrames ∧ (source : ℕ) < topo.maxFrames ∧
    65535 ≤ dist target ∧ 65535 ≤ dist source ∧ dist target ≠ dist source ∧
    ∃ ts ss, Route topo target source ts ss none ∧ ts.length + ss.length ≤ maxPathEdges

theorem foldedLength_le (prev : Bool) (kinds : List Bool) :
    foldedLength prev kinds ≤ kinds.length := by
  induction kinds generalizing prev with
  | nil => exact le_rfl
  | cons static rest ih =>
    have hrec := ih static
    rw [foldedLength, List.length_cons]
    split_ifs <;> omega

section Answers

variable {topo : TopologyView} {dist : ℕ → ℕ} {target source f g : FrameId} {es ts ss : List ℕ}

/-- A frame out of range is nobody's ancestor. -/
theorem TopologyView.Linked.climbs_out (hl : topo.Linked dist) (h : Climbs topo f es g)
    (hg : topo.maxFrames ≤ (g : ℕ)) : f = g := by
  cases h with
  | refl => rfl
  | step hf hp h =>
    have hlt := hl.climbs_lt h (hp ▸ hl.lt f hf)
    omega

/-- A frame out of range has no ancestor. -/
theorem Climbs.of_out (h : Climbs topo f es g) (hf : topo.maxFrames ≤ (f : ℕ)) : f = g := by
  cases h with
  | refl => rfl
  | step hlt _ _ => omega

/-- A route between different frames is one between frames in range. -/
theorem Route.in_range (hl : topo.Linked dist) (h : Route topo target source ts ss none)
    (hne : target ≠ source) :
    (target : ℕ) < topo.maxFrames ∧ (source : ℕ) < topo.maxFrames := by
  obtain ⟨m, -, hts, hss⟩ := h
  constructor
  · by_contra hge
    have hm : target = m := hts.of_out (not_lt.mp hge)
    have hs : source = m := hl.climbs_out hss (hm ▸ not_lt.mp hge)
    exact hne (hm.trans hs.symm)
  · by_contra hge
    have hm : source = m := hss.of_out (not_lt.mp hge)
    have ht : target = m := hl.climbs_out hts (hm ▸ not_lt.mp hge)
    exact hne (ht.trans hm.symm)

variable [Mul P] [Inv P] {edgeMeta : EdgeId → Option (EdgeMeta P)}

omit [Mul P] [Inv P] in
theorem FoldFailure.names {e : LookupError} (hroute : Route topo target source ts ss none)
    (hlen : ts.length + ss.length ≤ maxPathEdges)
    (h : FoldFailure edgeMeta (ts ++ ss.reverse) e) :
    NamesFailure edgeMeta topo target source e := by
  cases e with
  | treeTooDeep n => exact .inr ⟨ts, ss, hroute, hlen, h⟩
  | unknownEdge e => exact ⟨ts, ss, hroute, h⟩
  | mixedTimeDomains e d d' => exact ⟨ts, ss, hroute, h⟩
  | _ => exact h.elim

/-- `compile` on a walk that found a route. -/
theorem answersRight_of_walk (hl : topo.Linked dist) (hne : target ≠ source)
    {o : Option FrameId} (hroute : Route topo target source ts ss o)
    (hwalk : walk topo target source =
      if ts.length + ss.length ≤ maxPathEdges then routeResult target source ts ss o
      else .error (.treeTooDeep (maxPathEdges + 1))) :
    AnswersRight edgeMeta topo target source (compile edgeMeta topo target source) := by
  rw [compile, if_neg hne, hwalk]
  by_cases hle : ts.length + ss.length ≤ maxPathEdges
  · rw [if_pos hle]
    cases o with
    | some r =>
      refine ⟨?_, rfl, rfl, ts, ss, hroute⟩
      rintro ⟨us, vs, ⟨m, ⟨hma, hmb, -⟩, -⟩, -⟩
      exact hroute.2.2.2 ⟨m, hma, hmb⟩
    | none =>
      show AnswersRight edgeMeta topo target source (foldInto edgeMeta topo.generation ts ss)
      rcases foldInto_outcome edgeMeta topo.generation ts ss with ⟨plan, hfold, hok⟩ |
        ⟨e, hfold, hfail, hnot⟩
      · rw [hfold]
        exact ⟨ts, ss, hroute, hle, hok⟩
      · rw [hfold]
        refine ⟨?_, hfail.names hroute hle⟩
        rintro ⟨us, vs, hroute', -, hok⟩
        obtain ⟨rfl, rfl, -⟩ := hroute.unique hl hroute'
        exact hnot hok
  · rw [if_neg hle]
    refine ⟨?_, .inl ⟨rfl, ts, ss, o, hroute, not_le.mp hle⟩⟩
    rintro ⟨us, vs, hroute', hlen, -⟩
    obtain ⟨rfl, rfl, -⟩ := hroute'.unique hl hroute
    exact hle hlen

/-- `compile` on a frame out of range. -/
theorem answersRight_out (hl : topo.Linked dist) (hne : target ≠ source)
    (hout : ¬ ((target : ℕ) < topo.maxFrames ∧ (source : ℕ) < topo.maxFrames)) :
    AnswersRight edgeMeta topo target source (compile edgeMeta topo target source) := by
  have hnot : ¬ Compiles edgeMeta topo target source := by
    rintro ⟨ts, ss, hroute, -⟩
    exact hout (hroute.in_range hl hne)
  have hread : ∀ f : FrameId, ¬ (f : ℕ) < topo.maxFrames →
      read topo f = .error (.frameOutOfRange f) := by
    intro f hf
    rw [read, TopologyView.readFrame, if_pos (not_lt.mp hf)]
  rw [compile, if_neg hne, walk]
  by_cases ht : (target : ℕ) < topo.maxFrames
  · have hs : ¬ (source : ℕ) < topo.maxFrames := fun hs => hout ⟨ht, hs⟩
    simp only [bind, Except.bind, read_cursorAt ht, hread source hs]
    exact ⟨hnot, .inr rfl, not_lt.mp hs⟩
  · simp only [bind, Except.bind, hread target ht]
    exact ⟨hnot, .inl rfl, not_lt.mp ht⟩

/-- `compile` on one frame. -/
theorem answersRight_self (f : FrameId) :
    AnswersRight edgeMeta topo f f (compile edgeMeta topo f f) := by
  rw [compile, if_pos rfl]
  refine ⟨[], [], ⟨f, ⟨⟨[], .refl f⟩, ⟨[], .refl f⟩, fun _ h _ => h⟩, .refl f, .refl f⟩,
    Nat.zero_le _, by simp, by simp, Nat.zero_le _⟩

/-- `compile` between frames it is blind for. -/
theorem not_answersRight (hl : topo.Linked dist) (hblind : Blind topo dist target source) :
    ¬ AnswersRight edgeMeta topo target source (compile edgeMeta topo target source) := by
  obtain ⟨ha, hb, ht, hs, hd, ts, ss, hroute, hlen⟩ := hblind
  have hne : target ≠ source := fun h => hd (congrArg _ (congrArg _ h))
  have hcompile : compile edgeMeta topo target source =
      .error (.treeTooDeep (maxPathEdges + 1)) := by
    rw [compile, if_neg hne, walk_saturated hl ha hb hd ht hs]
    rfl
  rw [hcompile]
  rintro ⟨-, hnames⟩
  rcases hnames with ⟨-, us, vs, o, hroute', hlong⟩ | ⟨us, vs, hroute', hlen', hn, -⟩
  · obtain ⟨rfl, rfl, -⟩ := hroute.unique hl hroute'
    omega
  · -- a path is not folded to more steps than it has edges
    have hle := foldedLength_le false ((us ++ vs.reverse).map (isStatic edgeMeta))
    rw [List.length_map, List.length_append, List.length_reverse] at hle
    omega

/-- `compile` between frames it could be blind for, which are not close. -/
theorem answersRight_far (hl : topo.Linked dist) (hne : target ≠ source)
    (ha : (target : ℕ) < topo.maxFrames) (hb : (source : ℕ) < topo.maxFrames)
    (hd : dist target ≠ dist source) (ht : 65535 ≤ dist target) (hs : 65535 ≤ dist source)
    (hblind : ¬ Blind topo dist target source) :
    AnswersRight edgeMeta topo target source (compile edgeMeta topo target source) := by
  have hfar : ∀ ts ss, Route topo target source ts ss none →
      maxPathEdges < ts.length + ss.length := by
    intro ts ss hroute
    by_contra hle
    exact hblind ⟨ha, hb, ht, hs, hd, ts, ss, hroute, not_lt.mp hle⟩
  obtain ⟨ts, ss, o, hroute⟩ := exists_route hl ha hb
  have hlong : maxPathEdges < ts.length + ss.length := by
    cases o with
    | none => exact hfar ts ss hroute
    | some r =>
      -- two trees: the routes to the roots are the distances
      obtain ⟨hts, hr, -, -⟩ := hroute
      have hdist := hl.climbs_dist hts
      have hzero := hl.root r (hl.climbs_lt hts ha) hr
      unfold maxPathEdges
      omega
  rw [compile, if_neg hne, walk_saturated hl ha hb hd ht hs]
  refine ⟨?_, .inl ⟨rfl, ts, ss, o, hroute, hlong⟩⟩
  rintro ⟨us, vs, hroute', hlen, -⟩
  have hlong' := hfar us vs hroute'
  omega

/-- `compile` answers rightly exactly where it is not blind. -/
theorem answersRight_iff (hl : topo.Linked dist) :
    AnswersRight edgeMeta topo target source (compile edgeMeta topo target source) ↔
      ¬ Blind topo dist target source := by
  constructor
  · intro hright hblind
    exact not_answersRight hl hblind hright
  · intro hblind
    by_cases hne : target = source
    · subst hne
      exact answersRight_self target
    by_cases hrange : (target : ℕ) < topo.maxFrames ∧ (source : ℕ) < topo.maxFrames
    · obtain ⟨ha, hb⟩ := hrange
      by_cases hd : dist target = dist source ∨ dist target < 65535 ∨ dist source < 65535
      · obtain ⟨ts, ss, o, hroute, hwalk⟩ := walk_total hl ha hb hd
        exact answersRight_of_walk hl hne hroute hwalk
      · -- too deep to tell apart, but not close to each other
        obtain ⟨hd, hd'⟩ := not_or.mp hd
        obtain ⟨ht, hs⟩ := not_or.mp hd'
        exact answersRight_far hl hne ha hb hd (by omega) (by omega) hblind
    · exact answersRight_out hl hne hrange

end Answers

/-! ## Built topologies -/

/-- The number of links from a frame to its root. -/
noncomputable def Block.dist (blk : Block) (f : ℕ) : ℕ := hops blk.parent 0 (blk.parent f)

theorem Block.Forest.linked {m : TopoArena} {maxFrames : ℕ} (h : m.block.Forest maxFrames)
    (hedge : ∀ f < maxFrames, m.block.parent f ≠ 0 → m.block.edgeOfChild f ≠ 0) :
    (m.view maxFrames).Linked m.block.dist := by
  have hblock : (m.view maxFrames).block = m.block := m.view_block maxFrames
  refine ⟨fun f hf => ?_, fun f hf h0 => ?_, fun f hf h0 => ?_, fun f hf => ?_, fun f hf h0 => ?_⟩
  · rw [hblock]
    exact h.depth f hf f.pos
  · rw [hblock] at h0
    rw [Block.dist, h0, hops_self]
  · rw [hblock] at h0 ⊢
    exact (h.rooted _ (h.lt f hf)).hops_succ h0
  · rw [hblock]
    exact h.lt f hf
  · rw [hblock] at h0 ⊢
    exact hedge f hf h0

/-! ## A chain -/

section Chain

variable {n maxFrames : ℕ} {s : TopoRun}

/-- The links of a chain: each frame hangs below the one before it, `n` times. -/
def chainLinks (n f : ℕ) : ℕ × ℕ := if 2 ≤ f ∧ f ≤ n + 1 then (f - 1, 1) else (0, 0)

theorem chainLinks_succ (n : ℕ) :
    upd (chainLinks n) (n + 2) (n + 1, 1) = chainLinks (n + 1) := by
  funext f
  rw [upd_apply]
  unfold chainLinks
  by_cases hf : f = n + 2
  · rw [if_pos hf, if_pos (by omega), hf]
    rfl
  · rw [if_neg hf]
    by_cases hmem : 2 ≤ f ∧ f ≤ n + 1
    · rw [if_pos hmem, if_pos (by omega)]
    · rw [if_neg hmem, if_neg (by omega)]

/-- The link of a frame of the chain. -/
theorem chain_link (hs : s.Ok maxFrames) (hlinks : s.links = chainLinks n) {f : ℕ}
    (hf : f < maxFrames) (h2 : 2 ≤ f) (hn : f ≤ n + 1) :
    s.arena.block.parent f = f - 1 ∧ s.arena.block.edgeOfChild f = 1 := by
  have hlink := hs.links f hf (by omega)
  rw [hlinks, chainLinks, if_pos ⟨h2, hn⟩, Prod.mk.injEq] at hlink
  exact hlink

/-- No other frame has a link. -/
theorem chain_root (hs : s.Ok maxFrames) (hlinks : s.links = chainLinks n) {f : ℕ}
    (hf : f < maxFrames) (hout : ¬ (2 ≤ f ∧ f ≤ n + 1)) : s.arena.block.parent f = 0 := by
  by_cases h0 : f = 0
  · rw [h0]
    exact hs.forest.root
  have hlink := hs.links f hf (by omega)
  rw [hlinks, chainLinks, if_neg hout, Prod.mk.injEq] at hlink
  exact hlink.1

/-- A walk up the chain does not come by a frame further down. -/
theorem chain_iterate_le (hs : s.Ok maxFrames) (hlinks : s.links = chainLinks n) {f : ℕ}
    (hf : f < maxFrames) (k : ℕ) : s.arena.block.parent^[k] f ≤ f := by
  induction k generalizing f with
  | zero => exact le_rfl
  | succ k ih =>
    rw [Function.iterate_succ_apply]
    have hle : s.arena.block.parent f ≤ f := by
      by_cases hmem : 2 ≤ f ∧ f ≤ n + 1
      · rw [(chain_link hs hlinks hf hmem.1 hmem.2).1]
        omega
      · rw [chain_root hs hlinks hf hmem]
        omega
    exact (ih (hs.forest.lt f hf)).trans hle

/-- The distances along the chain. -/
theorem chain_dist (hs : s.Ok maxFrames) (hlinks : s.links = chainLinks n) {f : ℕ}
    (hf : f + 1 < maxFrames) (hn : f ≤ n) : s.arena.block.dist (f + 1) = f := by
  have hhops : ∀ g, g < maxFrames → g ≤ n + 1 → hops s.arena.block.parent 0 g = g := by
    intro g
    induction g with
    | zero => exact fun _ _ => hops_self
    | succ g ih =>
      intro hg hgn
      rw [(hs.forest.rooted _ hg).hops_succ (by omega)]
      by_cases h0 : g = 0
      · rw [chain_root hs hlinks hg (by omega), hops_self, h0]
      · rw [(chain_link hs hlinks hg (by omega) hgn).1, Nat.add_sub_cancel,
          ih (by omega) (by omega)]
  rw [Block.dist]
  by_cases h0 : f = 0
  · rw [chain_root hs hlinks hf (by omega), hops_self, h0]
  · rw [(chain_link hs hlinks hf (by omega) (by omega)).1, Nat.add_sub_cancel]
    exact hhops f (by omega) (by omega)

/-- Chains of any length are built by calls that succeed. -/
theorem exists_chain (hn : n + 1 < maxFrames) : ∃ s,
    Reachable (topoStep maxFrames) (TopoRun.init fun _ => Block.empty) s ∧
      s.links = chainLinks n := by
  induction n with
  | zero =>
    refine ⟨_, .refl, ?_⟩
    funext f
    rw [chainLinks, if_neg (by omega)]
    rfl
  | succ n ih =>
    obtain ⟨s, hr, hlinks⟩ := ih (by omega)
    have hs := TopoRun.ok_of_reachable hr
    obtain ⟨child, hchild⟩ : ∃ child : FrameId, (child : ℕ) = n + 2 := ⟨⟨n + 2, by omega⟩, rfl⟩
    obtain ⟨res, m', hrun, hout⟩ := setParent_run hs.forest child (n + 1) 1
    match res, hout with
    | .error (.unknownFrame f), ⟨_, hf, he⟩ =>
      -- both frames are in range
      rcases he with rfl | rfl
      · omega
      · omega
    | .error (.wouldCreateCycle c), ⟨_, _, k, hk⟩ =>
      have hle := chain_iterate_le hs hlinks (f := n + 1) (by omega) k
      omega
    | .ok (), _ =>
      have hstep : topoStep maxFrames s (.call child (n + 1) 1) =
          some ⟨m', upd s.links child (n + 1, 1), s.successes + 1⟩ := by
        simp only [topoStep, hrun]
      refine ⟨_, hr.step trivial hstep, ?_⟩
      show upd s.links child (n + 1, 1) = _
      rw [hlinks, hchild, chainLinks_succ]

theorem chain_edges (hs : s.Ok maxFrames) (hlinks : s.links = chainLinks n) :
    ∀ f < maxFrames, s.arena.block.parent f ≠ 0 → s.arena.block.edgeOfChild f ≠ 0 := by
  intro f hf hparent
  by_cases hmem : 2 ≤ f ∧ f ≤ n + 1
  · rw [(chain_link hs hlinks hf hmem.1 hmem.2).2]
    exact Nat.one_ne_zero
  · exact absurd (chain_root hs hlinks hf hmem) hparent

/-- Neighbours on the chain are one edge apart. -/
theorem chain_route (hs : s.Ok maxFrames) (hlinks : s.links = chainLinks n) {f g : FrameId}
    (hf : (f : ℕ) < maxFrames) (hn : (f : ℕ) ≤ n + 1) (hg : (f : ℕ) = g + 1) :
    Route (s.arena.view maxFrames) f g [1] [] none := by
  have hpos : 0 < (g : ℕ) := g.pos
  obtain ⟨hparent, hedge⟩ := chain_link hs hlinks hf (by omega) hn
  have hblock : (s.arena.view maxFrames).block = s.arena.block := s.arena.view_block maxFrames
  have hclimb : Climbs (s.arena.view maxFrames) f [1] g := by
    rw [← hedge, ← hblock]
    refine .step hf ?_ (.refl g)
    rw [hblock, hparent]
    omega
  exact ⟨g, ⟨⟨_, hclimb⟩, ⟨_, .refl g⟩, fun c _ hc => hc⟩, hclimb, .refl g⟩

end Chain

/-! ## The answers on built topologies -/

section Built

variable [Mul P] [Inv P] {maxFrames : ℕ} {garbage : ℕ → Block} {s : TopoRun}

/-- **Main theorem.** On every topology that calls of `set_parent` built with nonzero
    edges, `compile` returns `Ok` exactly for the paths that can be compiled, and
    errors that name what fails, for the frames it is not blind for, and for no others. -/
theorem compile_right_iff (hs : Reachable (topoStep maxFrames) (TopoRun.init garbage) s)
    (hedge : ∀ f < maxFrames, s.arena.block.parent f ≠ 0 → s.arena.block.edgeOfChild f ≠ 0)
    (edgeMeta : EdgeId → Option (EdgeMeta P)) (target source : FrameId) :
    AnswersRight edgeMeta (s.arena.view maxFrames) target source
        (compile edgeMeta (s.arena.view maxFrames) target source) ↔
      ¬ Blind (s.arena.view maxFrames) s.arena.block.dist target source :=
  answersRight_iff ((TopoRun.ok_of_reachable hs).forest.linked hedge)

end Built

/-- One static edge for every child. -/
def staticEdges : EdgeId → Option (EdgeMeta (Equiv.Perm (Fin 3))) := fun _ => some ⟨.static, 0, 1⟩

theorem foldable_staticEdges : Foldable staticEdges [1] where
  known := fun _ _ h => by cases h
  oneDomain := by
    rintro e - e' - d d' ⟨em, hem, hkind, -⟩
    cases hem
    exact absurd rfl hkind
  short := by decide

/-- Two frames, one below the other. -/
theorem compile_right_iff_pair : ∃ s,
    Reachable (topoStep 3) (TopoRun.init fun _ => Block.empty) s ∧ s.links 2 = (1, 1) ∧
      AnswersRight staticEdges (s.arena.view 3) 2 1
        (compile staticEdges (s.arena.view 3) 2 1) := by
  obtain ⟨s, hr, hlinks⟩ := exists_chain (show 1 + 1 < 3 by omega)
  have hs := TopoRun.ok_of_reachable hr
  refine ⟨s, hr, by rw [hlinks]; rfl, ?_⟩
  refine (compile_right_iff hr (chain_edges hs hlinks) staticEdges 2 1).mpr ?_
  rintro ⟨-, -, hfar, -⟩
  have hdist : s.arena.block.dist 2 = 1 := chain_dist hs hlinks (by omega) (by omega)
  have hfar' : 65535 ≤ s.arena.block.dist 2 := hfar
  omega

/-- The last two frames of a chain of `65537` frames are one edge apart, and `compile` says
    that there are more than `64`. -/
theorem compile_blind : ∃ s,
    Reachable (topoStep 65538) (TopoRun.init fun _ => Block.empty) s ∧
      (∀ f < 65538, s.arena.block.parent f ≠ 0 → s.arena.block.edgeOfChild f ≠ 0) ∧
      Compiles staticEdges (s.arena.view 65538) 65537 65536 ∧
      compile staticEdges (s.arena.view 65538) 65537 65536 = .error (.treeTooDeep 65) := by
  obtain ⟨s, hr, hlinks⟩ := exists_chain (show 65536 + 1 < 65538 by omega)
  have hs := TopoRun.ok_of_reachable hr
  have hedges := chain_edges hs hlinks
  have hroute := chain_route hs hlinks (f := 65537) (g := 65536) (by decide) (by decide) (by decide)
  have hdt : s.arena.block.dist 65537 = 65536 := chain_dist hs hlinks (by omega) (by omega)
  have hds : s.arena.block.dist 65536 = 65535 := chain_dist hs hlinks (by omega) (by omega)
  refine ⟨s, hr, hedges, ⟨[1], [], hroute, by decide, foldable_staticEdges⟩, ?_⟩
  have hwalk : walk (s.arena.view 65538) 65537 65536 = .error (.treeTooDeep 65) := by
    refine walk_saturated (hs.forest.linked hedges) (show 65537 < 65538 by omega)
      (show 65536 < 65538 by omega) ?_ ?_ ?_
    · show s.arena.block.dist 65537 ≠ s.arena.block.dist 65536
      rw [hdt, hds]
      decide
    · exact hdt.ge.trans' (by decide)
    · exact hds.ge
  rw [compile, if_neg (by decide), hwalk]
  rfl

end TfTree
