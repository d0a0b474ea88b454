import Mathlib
import TfTree.Math.Velocity
import TfTree.Plan.Eval
import TfTree.Plan.Image

/-!
# The twist a plan folds to

`Plan::fold_with_derivatives` (`tf_tree_core/src/plan.rs`) carries a body twist along with
the pose. Over exact arithmetic and unit quaternions a pose with its body twist is an
element of the group of motions, and the loop multiplies the motions of the steps.

Results:
* `foldTwists_eq`: the loop is the fold of the motions of the steps.
* `foldTwists_moved`: over the dual numbers, folding the moved poses of the edges gives the
  folded pose moved along the folded twist.
* `twist_of_path`: a compiled plan folds to the composition of the motions over the path;
  the plan of the swapped pair folds to its inverse.
-/

namespace TfTree

open Data DualNumber

variable {F : Type}

/-! ## Model of `plan.rs` -/

section Model

variable [Scalar F]

/-- One iteration of the loop of `Plan::fold_with_derivatives` (lines 561–577), on the pose
    and the twist sampled for a dynamic step. -/
def Step.composeTwist (acc : Iso3 F × Twist F) (sampled : EdgeId → Iso3 F × Twist F) :
    Step (Iso3 F) → Iso3 F × Twist F
  | .static m => composeStaticTwist acc m
  | .dyn edge inverted => composeDynTwist acc inverted (sampled edge)

/-- The value `Plan::fold_with_derivatives` computes from the poses and the twists of the
    dynamic edges. -/
def foldTwists (sampled : EdgeId → Iso3 F × Twist F) (steps : List (Step (Iso3 F))) :
    Iso3 F × Twist F :=
  steps.foldl (fun acc s => s.composeTwist acc sampled) (1, Twist.zero)

/-- `Plan::fold_with_derivatives` (lines 555–580), over its sampler. -/
def Plan.foldWithDerivatives {C : Type} (plan : Plan (Iso3 F))
    (sample : ℕ → EdgeId → C → RingProg F (Except LookupError (Iso3 F × Twist F) × C)) (c : C) :
    RingProg F (Except LookupError (Iso3 F × Twist F) × C) :=
  foldSteps composeStaticTwist composeDynTwist sample 0 plan.steps (1, Twist.zero) c

/-- Where every dynamic edge of a plan is sampled, the loop returns the fold of the samples. -/
theorem foldWithDerivatives_answers {C : Type} {m : RingArena F} {plan : Plan (Iso3 F)}
    {sample : ℕ → EdgeId → C → RingProg F (Except LookupError (Iso3 F × Twist F) × C)}
    {answer : EdgeId → Except LookupError (Iso3 F × Twist F)}
    {sampled : EdgeId → Iso3 F × Twist F}
    (hs : ∀ k edge c, Answers m (sample k edge c) (answer edge))
    (hd : ∀ edge inverted, .dyn edge inverted ∈ plan.steps → answer edge = .ok (sampled edge))
    (c : C) :
    Answers m (plan.foldWithDerivatives sample c) (.ok (foldTwists sampled plan.steps)) := by
  have hgen : ∀ steps : List (Step (Iso3 F)),
      (∀ edge inverted, .dyn edge inverted ∈ steps → answer edge = .ok (sampled edge)) →
      ∀ acc, evalSteps composeStaticTwist composeDynTwist answer steps acc =
        .ok (steps.foldl (fun acc s => s.composeTwist acc sampled) acc) := by
    intro steps
    induction steps with
    | nil => exact fun _ _ => rfl
    | cons s steps ih =>
      intro h acc
      have htail := ih fun edge inverted hmem => h edge inverted (List.mem_cons_of_mem s hmem)
      cases s with
      | static m => exact htail _
      | dyn edge inverted =>
        rw [evalSteps, h edge inverted (List.mem_cons_self ..)]
        exact htail _
  have hfold : Answers m (plan.foldWithDerivatives sample c)
      (evalSteps composeStaticTwist composeDynTwist answer plan.steps (1, Twist.zero)) :=
    foldSteps_answers hs 0 plan.steps _ c
  rwa [hgen plan.steps hd] at hfold

end Model

/-- `Plan::fold_at_with_derivatives` is the loop over the samplers of the guard. -/
theorem Plan.foldAtWithDerivatives_eq [Kernels F] (plan : Plan (Iso3 F)) (g : Guard) (t : ℤ) :
    plan.foldAtWithDerivatives g t = plan.foldWithDerivatives (fun _ edge _ => do
      let out ← g.view.sampleWithTwist edge t .error
      return (out, ())) () := rfl

/-! ## Folding motions -/

section Exact

variable [Field F]

local instance {F : Type} [CommRing F] [Div F] : Scalar F := exactScalar F

noncomputable local instance divPathDual : Div F[ε] := dualDiv F

/-- A pose and a body twist over exact arithmetic. -/
abbrev BodyMotion (F : Type) [Field F] := Motion (Rigid F) (Twist F)

/-- The pose and the twist of a motion. -/
def BodyMotion.pair (a : BodyMotion F) : Iso3 F × Twist F := (a.pose.1, a.rate)

variable {motion : EdgeId → BodyMotion F}

theorem composeStaticTwist_pair (a : BodyMotion F) (m : Rigid F) :
    composeStaticTwist a.pair m.1 = (a * Motion.still _ m).pair := by
  apply Prod.ext
  · rfl
  · show m.1.adjointInv a.rate = m⁻¹ • a.rate + 0
    rw [Rigid.adjointInv_eq, add_zero]

theorem composeDynTwist_pair (a b : BodyMotion F) (inverted : Bool) :
    composeDynTwist a.pair inverted b.pair = (if inverted then a / b else a * b).pair := by
  cases inverted with
  | false =>
    apply Prod.ext
    · rfl
    · show (b.pose.1.adjointInv a.rate).add b.rate = b.pose⁻¹ • a.rate + b.rate
      rw [Rigid.adjointInv_eq]
      rfl
  | true =>
    apply Prod.ext
    · show a.pose.1 / b.pose.1 = (a / b).pose.1
      rw [Motion.div_pose]
      rfl
    · show b.pose • (a.rate - b.rate) = (a / b).rate
      rw [Motion.div_rate]

/-- The loop multiplies the motions of the steps; a static step does not move. -/
theorem foldTwists_eq (motion : EdgeId → BodyMotion F) (steps : List (Step (Rigid F))) :
    foldTwists (fun edge => (motion edge).pair) (steps.map (Step.map Subtype.val)) =
      BodyMotion.pair (foldPoses motion (steps.map (Step.map (Motion.still _)))) := by
  have hgen : ∀ (steps : List (Step (Rigid F))) (acc : BodyMotion F),
      (steps.map (Step.map Subtype.val)).foldl
          (fun acc s => s.composeTwist acc fun edge => (motion edge).pair) acc.pair =
        BodyMotion.pair ((steps.map (Step.map (Motion.still _))).foldl
          (fun acc s => s.compose acc motion) acc) := by
    intro steps
    induction steps with
    | nil => exact fun _ => rfl
    | cons s steps ih =>
      intro acc
      have hstep : (s.map Subtype.val).composeTwist acc.pair (fun edge => (motion edge).pair) =
          BodyMotion.pair ((s.map (Motion.still _)).compose acc motion) := by
        cases s with
        | static m => exact composeStaticTwist_pair acc m
        | dyn edge inverted => exact composeDynTwist_pair acc (motion edge) inverted
      rw [List.map_cons, List.map_cons, List.foldl_cons, List.foldl_cons, hstep]
      exact ih _
  exact hgen steps 1

/-- Two static steps in a row fold as their product does. -/
theorem foldTwists_merge (motion : EdgeId → BodyMotion F) (l r : List (Step (Rigid F)))
    (a b : Rigid F) :
    foldTwists (fun edge => (motion edge).pair)
        ((l ++ .static a :: .static b :: r).map (Step.map Subtype.val)) =
      foldTwists (fun edge => (motion edge).pair)
        ((l ++ .static (a * b) :: r).map (Step.map Subtype.val)) := by
  rw [foldTwists_eq, foldTwists_eq, foldPoses_eq_prod, foldPoses_eq_prod]
  simp only [List.map_append, List.map_cons, List.prod_append, List.prod_cons, Step.map,
    Step.factor, map_mul, mul_assoc]

/-! ## Compiled plans -/

/-- The static edges are where the motions say, and do not move. -/
def StaticsAt (edgeMeta : EdgeId → Option (EdgeMeta (Iso3 F))) (motion : EdgeId → BodyMotion F) :
    Prop :=
  ∀ edge em, edgeMeta edge = some em → em.kind = .static →
    (motion edge).pose.1 = em.staticPose ∧ (motion edge).rate = 0

/-- The motion over the edges climbed from a frame, from the top down. -/
def pathMotion (motion : EdgeId → BodyMotion F) (es : List ℕ) : BodyMotion F :=
  (es.reverse.map motion).prod

section Compiled

variable {edgeMeta : EdgeId → Option (EdgeMeta (Iso3 F))} {topo : TopologyView}
  {target source : FrameId} {plan : Plan (Iso3 F)}

/-- The edges of a description, at the poses of the motions. -/
def rigidMeta (edgeMeta : EdgeId → Option (EdgeMeta (Iso3 F))) (motion : EdgeId → BodyMotion F)
    (edge : EdgeId) : Option (EdgeMeta (Rigid F)) :=
  (edgeMeta edge).map fun em => ⟨em.kind, em.domain, (motion edge).pose⟩

/-- The edges of a description, at their motions. -/
def motionMeta (edgeMeta : EdgeId → Option (EdgeMeta (Iso3 F)))
    (motion : EdgeId → BodyMotion F) (edge : EdgeId) : Option (EdgeMeta (BodyMotion F)) :=
  (edgeMeta edge).map fun em => ⟨em.kind, em.domain, motion edge⟩

theorem metaImage_val (h : StaticsAt edgeMeta motion) :
    MetaImage Subtype.val (rigidMeta edgeMeta motion) edgeMeta := by
  intro edge
  have hedge := h edge
  unfold rigidMeta
  cases hem : edgeMeta edge with
  | none => exact .none
  | some em => exact .some ⟨rfl, rfl, fun hs => (hedge em hem hs).1⟩

theorem metaImage_still (h : StaticsAt edgeMeta motion) :
    MetaImage (Motion.still (Twist F)) (rigidMeta edgeMeta motion)
      (motionMeta edgeMeta motion) := by
  intro edge
  have hedge := h edge
  unfold rigidMeta motionMeta
  cases hem : edgeMeta edge with
  | none => exact .none
  | some em =>
    exact .some ⟨rfl, rfl, fun hs => Motion.ext rfl (hedge em hem hs).2.symm⟩

theorem pathPose_motionMeta (edgeMeta : EdgeId → Option (EdgeMeta (Iso3 F)))
    (motion : EdgeId → BodyMotion F) (es : List ℕ) :
    pathPose (motionMeta edgeMeta motion) motion es = pathMotion motion es := by
  have hedge : edgePose (motionMeta edgeMeta motion) motion = motion := by
    funext edge
    unfold edgePose motionMeta
    cases edgeMeta edge with
    | none => rfl
    | some em => exact ite_self _
  rw [pathPose, hedge]
  rfl

/-- A plan over motionless static edges, as a plan over unit poses. -/
theorem exists_rigidPlan (h : StaticsAt edgeMeta motion)
    (hplan : compile edgeMeta topo target source = .ok plan) :
    ∃ rigid : Plan (Rigid F), plan = rigid.map Subtype.val ∧
      compile (motionMeta edgeMeta motion) topo target source =
        .ok (rigid.map (Motion.still (Twist F))) := by
  have hval := compile_image Rigid.coe_mul Rigid.coe_inv (metaImage_val h) topo target source
  have hstill := compile_image (map_mul _) (map_inv _) (metaImage_still h) topo target source
  rw [hplan] at hval
  cases hc : compile (rigidMeta edgeMeta motion) topo target source with
  | error e =>
    rw [hc] at hval
    cases hval
  | ok rigid =>
    rw [hc] at hval hstill
    exact ⟨rigid, Except.ok.inj hval, hstill⟩

/-- However the dynamic edges of a plan are sampled at the motions, its loop returns the
    pose and the twist. -/
def Plan.FoldsTo (plan : Plan (Iso3 F)) (motion : EdgeId → BodyMotion F)
    (total : Iso3 F × Twist F) : Prop :=
  ∀ (C : Type) (m : RingArena F)
    (sample : ℕ → EdgeId → C → RingProg F (Except LookupError (Iso3 F × Twist F) × C))
    (answer : EdgeId → Except LookupError (Iso3 F × Twist F)),
    (∀ k edge c, Answers m (sample k edge c) (answer edge)) →
    (∀ edge inverted, .dyn edge inverted ∈ plan.steps → answer edge = .ok (motion edge).pair) →
    ∀ c, Answers m (plan.foldWithDerivatives sample c) (.ok total)

theorem Plan.FoldsTo.of_eq {total : Iso3 F × Twist F}
    (h : foldTwists (fun edge => (motion edge).pair) plan.steps = total) :
    plan.FoldsTo motion total :=
  fun _ _ _ _ hs hd c => h ▸ foldWithDerivatives_answers hs hd c

/-- A compiled plan folds to the composition of the motions over its path, merged or not. -/
theorem foldTwists_path {m : FrameId} {ts ss : List ℕ} (hf : topo.IsForest)
    (h : StaticsAt edgeMeta motion) (hplan : compile edgeMeta topo target source = .ok plan)
    (hlca : IsLca topo target source m) (ht : Climbs topo target ts m)
    (hs : Climbs topo source ss m) :
    foldTwists (fun edge => (motion edge).pair) plan.steps =
        ((pathMotion motion ts)⁻¹ * pathMotion motion ss).pair ∧
      foldTwists (fun edge => (motion edge).pair) ((foldEdges ts ss).map (resolve edgeMeta)) =
        ((pathMotion motion ts)⁻¹ * pathMotion motion ss).pair := by
  obtain ⟨rigid, rfl, hmotion⟩ := exists_rigidPlan h hplan
  obtain ⟨m', ts', ss', hlca', ht', hs', hplan, -⟩ := compile_planOf hf hmotion
  obtain rfl := hlca.unique hf hlca'
  obtain rfl := ht.eq_of_forest hf ht'
  obtain rfl := hs.eq_of_forest hf hs'
  have hpath := hplan.meaning motion
  rw [pathPose_motionMeta, pathPose_motionMeta] at hpath
  constructor
  · rw [← hpath]
    exact foldTwists_eq motion rigid.steps
  · have hval : (foldEdges ts ss).map (resolve edgeMeta) =
        ((foldEdges ts ss).map (resolve (rigidMeta edgeMeta motion))).map
          (Step.map Subtype.val) := by
      rw [List.map_map]
      exact List.map_congr_left fun e _ => resolve_image Rigid.coe_inv (metaImage_val h) e
    have hstill : (foldEdges ts ss).map (resolve (motionMeta edgeMeta motion)) =
        ((foldEdges ts ss).map (resolve (rigidMeta edgeMeta motion))).map
          (Step.map (Motion.still (Twist F))) := by
      rw [List.map_map]
      exact List.map_congr_left fun e _ => resolve_image (map_inv _) (metaImage_still h) e
    rw [hval, foldTwists_eq, ← hstill, ← hplan.merged, ← hpath]

/-- The pose the loop returns is the pose `Plan::fold_at` returns. -/
theorem foldPoses_pose (motion : EdgeId → BodyMotion F) (steps : List (Step (Rigid F))) :
    foldPoses (fun edge => (motion edge).pose.1) (steps.map (Step.map Subtype.val)) =
      (foldPoses motion (steps.map (Step.map (Motion.still _)))).pose.1 := by
  have hsteps : steps.map (Step.map Subtype.val) =
      ((steps.map (Step.map (Motion.still (Twist F)))).map (Step.map Motion.toPose)).map
        (Step.map Subtype.val) := by
    simp only [List.map_map]
    refine List.map_congr_left fun s _ => ?_
    cases s <;> rfl
  rw [hsteps, foldPoses_image Rigid.coe_one Rigid.coe_mul Rigid.coe_div]
  have hpose := foldPoses_image (map_one (Motion.toPose (G := Rigid F) (W := Twist F)))
    (map_mul _) (map_div _) motion (steps.map (Step.map (Motion.still (Twist F))))
  exact congrArg Subtype.val hpose

/-- Over the dual numbers, where a pose that moves is a pose, the poses of the edges moved
    along their twists fold to the pose moved along the folded twist. -/
theorem foldPoses_moved [NeZero (2 : F)] (motion : EdgeId → BodyMotion F)
    (steps : List (Step (Rigid F))) :
    foldPoses (fun edge => (Rigid.moved (motion edge)).1)
        ((steps.map (Step.map Subtype.val)).map
          (Step.map (Iso3.map (TrivSqZeroExt.inlHom F F)))) =
      (Rigid.moved (foldPoses motion (steps.map (Step.map (Motion.still _))))).1 := by
  have hsteps : (steps.map (Step.map Subtype.val)).map
      (Step.map (Iso3.map (TrivSqZeroExt.inlHom F F))) =
      ((steps.map (Step.map (Motion.still _))).map (Step.map Rigid.moved)).map
        (Step.map Subtype.val) := by
    simp only [List.map_map]
    refine List.map_congr_left fun s _ => ?_
    cases s with
    | static m => exact congrArg (Step.static ·.1) (Rigid.moved_still m).symm
    | dyn edge inverted => rfl
  rw [hsteps, foldPoses_image Rigid.coe_one Rigid.coe_mul Rigid.coe_div,
    foldPoses_image (map_one _) (map_mul _) (map_div _)]

/-- What the twist of a pair of frames must be, for the plans of the pair and of the swapped
    pair over a path. -/
structure PathTwist [NeZero (2 : F)] (edgeMeta : EdgeId → Option (EdgeMeta (Iso3 F)))
    (motion : EdgeId → BodyMotion F) (ts ss : List ℕ) (plan back : Plan (Iso3 F))
    (total : BodyMotion F) : Prop where
  composed : total = (pathMotion motion ts)⁻¹ * pathMotion motion ss
  folded : plan.FoldsTo motion total.pair
  pose : foldPoses (fun edge => (motion edge).pose.1) plan.steps = total.pose.1
  moved : foldPoses (fun edge => (Rigid.moved (motion edge)).1)
    (plan.steps.map (Step.map (Iso3.map (TrivSqZeroExt.inlHom F F)))) = (Rigid.moved total).1
  unmerged : foldTwists (fun edge => (motion edge).pair)
    ((foldEdges ts ss).map (resolve edgeMeta)) = total.pair
  merged : ∀ (l r : List (Step (Rigid F))) (a b : Rigid F),
    foldTwists (fun edge => (motion edge).pair)
        ((l ++ .static a :: .static b :: r).map (Step.map Subtype.val)) =
      foldTwists (fun edge => (motion edge).pair)
        ((l ++ .static (a * b) :: r).map (Step.map Subtype.val))
  swapped : back.FoldsTo motion (total.pose.1⁻¹, (total.pose.1.adjoint total.rate).scale (-1))

/-- **Main theorem.** For every compiled plan and every motion of its dynamic edges, the loop
    returns the composition of the motions over the path, whether static edges are merged or
    not: the body twist of the pose, in that the poses moved along their twists fold to the
    pose moved along it. The plan of the swapped pair returns the inverse pose and minus the
    adjoint of the twist. -/
theorem twist_of_path [NeZero (2 : F)] {back : Plan (Iso3 F)} (hf : topo.IsForest)
    (h : StaticsAt edgeMeta motion) (hplan : compile edgeMeta topo target source = .ok plan)
    (hback : compile edgeMeta topo source target = .ok back) :
    ∃ m ts ss total, IsLca topo target source m ∧ Climbs topo target ts m ∧
      Climbs topo source ss m ∧ PathTwist edgeMeta motion ts ss plan back total := by
  obtain ⟨rigid, rfl, hmotion⟩ := exists_rigidPlan h hplan
  obtain ⟨m, ts, ss, hlca, ht, hs, hrigid, -⟩ := compile_planOf hf hmotion
  have hfwd := foldTwists_path hf h hplan hlca ht hs
  have hbwd := foldTwists_path hf h hback hlca.symm hs ht
  have htotal : foldPoses motion (rigid.map (Motion.still (Twist F))).steps =
      (pathMotion motion ts)⁻¹ * pathMotion motion ss := by
    rw [hrigid.meaning, pathPose_motionMeta, pathPose_motionMeta]
  refine ⟨m, ts, ss, _, hlca, ht, hs, rfl, .of_eq hfwd.1, ?_, ?_, hfwd.2,
    foldTwists_merge motion, .of_eq ?_⟩
  · rw [← htotal]
    exact foldPoses_pose motion rigid.steps
  · rw [← htotal]
    exact foldPoses_moved motion rigid.steps
  · -- the way back is the inverse of the way there
    have hinv : (pathMotion motion ss)⁻¹ * pathMotion motion ts =
        ((pathMotion motion ts)⁻¹ * pathMotion motion ss)⁻¹ := by
      rw [mul_inv_rev, inv_inv]
    rw [hbwd.1, hinv]
    rfl

end Compiled

end Exact

/-! ## A concrete pair of plans -/

local instance {F : Type} [CommRing F] [Div F] : Scalar F := exactScalar F

/-- On the edges of `branches` a motion each: `1` and `3` do not move. -/
def swing : EdgeId → BodyMotion ℚ
  | 1 => ⟨⟨⟨⟨3/5, 4/5, 0, 0⟩, ⟨1, 2, 3⟩⟩, by norm_num [Quat.UnitNorm]⟩, 0⟩
  | 2 => ⟨⟨⟨⟨4/5, 0, 3/5, 0⟩, ⟨0, 1, 0⟩⟩, by norm_num [Quat.UnitNorm]⟩, ⟨⟨1, 2, 0⟩, ⟨0, 0, 3⟩⟩⟩
  | 3 => ⟨⟨⟨⟨0, 0, 1, 0⟩, ⟨5, 0, 0⟩⟩, by norm_num [Quat.UnitNorm]⟩, 0⟩
  | 4 => ⟨⟨⟨⟨0, 3/5, 0, 4/5⟩, ⟨0, 0, 2⟩⟩, by norm_num [Quat.UnitNorm]⟩, ⟨⟨0, 1, 1⟩, ⟨4, 0, 0⟩⟩⟩
  | _ => 1

/-- The edges of `branches`; the record of a dynamic edge holds no pose. -/
def swingEdges : EdgeId → Option (EdgeMeta (Iso3 ℚ))
  | 1 => some ⟨.static, 0, (swing 1).pose.1⟩
  | 2 => some ⟨.dynamic, 5, ⟨⟨0, 0, 0, 0⟩, ⟨0, 0, 0⟩⟩⟩
  | 3 => some ⟨.static, 0, (swing 3).pose.1⟩
  | 4 => some ⟨.dynamic, 5, ⟨⟨0, 0, 0, 0⟩, ⟨0, 0, 0⟩⟩⟩
  | _ => none

theorem swing_staticsAt : StaticsAt swingEdges swing := by
  intro edge em hem hs
  match edge with
  | 1 => cases hem; exact ⟨rfl, rfl⟩
  | 2 => cases hem; cases hs
  | 3 => cases hem; exact ⟨rfl, rfl⟩
  | 4 => cases hem; cases hs
  | 0 => cases hem
  | _ + 5 => cases hem

theorem twist_of_path_swing :
    ∃ plan back, compile swingEdges branches 3 5 = .ok plan ∧
      compile swingEdges branches 5 3 = .ok back ∧
      ∃ m ts ss total, IsLca branches 3 5 m ∧ Climbs branches 3 ts m ∧ Climbs branches 5 ss m ∧
        PathTwist swingEdges swing ts ss plan back total :=
  ⟨_, _, rfl, rfl, twist_of_path branches_isForest swing_staticsAt rfl rfl⟩

end TfTree
