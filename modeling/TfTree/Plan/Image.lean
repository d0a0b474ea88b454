import Mathlib
import TfTree.Plan.Compile

/-!
# Compiling over another type of poses

`compile` multiplies and inverts the static poses and looks at nothing else of them. A map
of poses that keeps both operations therefore carries a compilation to the compilation of
the mapped edges.

Results:
* `compile_image`: the plan of the mapped edges is the mapped plan.
* `foldPoses_image`: a map that keeps products and quotients carries what a plan folds to.
* `IsLca.unique`, `Climbs.eq_of_forest`: in a forest a pair of frames has one path.
-/

namespace TfTree

open Data

variable {P Q : Type}

/-! ## Mapped plans -/

/-- The step with its pose mapped. -/
def Step.map (φ : P → Q) : Step P → Step Q
  | .static m => .static (φ m)
  | .dyn edge inverted => .dyn edge inverted

/-- The plan with its poses mapped. -/
def Plan.map (φ : P → Q) (plan : Plan P) : Plan Q where
  generation := plan.generation
  steps := plan.steps.map (Step.map φ)
  domain := plan.domain
  dynCount := plan.dynCount
  firstDyn := plan.firstDyn
  steps_le := (List.length_map ..).trans_le plan.steps_le

/-- The locals of `fold_into` with the poses mapped. -/
def FoldState.map (φ : P → Q) (st : FoldState P) : FoldState Q where
  out := st.out.map (Step.map φ)
  n := st.n
  dynCount := st.dynCount
  firstDyn := st.firstDyn
  lastStatic := st.lastStatic
  domain := st.domain
  out_len := (List.length_map ..).trans st.out_len

/-- The second description of the edges is the first with its static poses mapped. What a
    dynamic edge has for a static pose is not looked at. -/
def MetaImage (φ : P → Q) (edgeMeta : EdgeId → Option (EdgeMeta P))
    (edgeMeta' : EdgeId → Option (EdgeMeta Q)) : Prop :=
  ∀ edge, Option.Rel (fun em em' => em.kind = em'.kind ∧ em.domain = em'.domain ∧
    (em.kind = .static → φ em.staticPose = em'.staticPose)) (edgeMeta edge) (edgeMeta' edge)

theorem MetaImage.cases {φ : P → Q} {edgeMeta : EdgeId → Option (EdgeMeta P)}
    {edgeMeta' : EdgeId → Option (EdgeMeta Q)} (h : MetaImage φ edgeMeta edgeMeta')
    (edge : EdgeId) : (edgeMeta edge = none ∧ edgeMeta' edge = none) ∨
      ∃ em em', edgeMeta edge = some em ∧ edgeMeta' edge = some em' ∧ em'.kind = em.kind ∧
        em'.domain = em.domain ∧ (em.kind = .static → em'.staticPose = φ em.staticPose) := by
  have hedge := h edge
  cases hm : edgeMeta edge with
  | none =>
    rw [hm] at hedge
    cases hm' : edgeMeta' edge with
    | none => exact .inl ⟨rfl, rfl⟩
    | some em' => rw [hm'] at hedge; cases hedge
  | some em =>
    rw [hm] at hedge
    cases hm' : edgeMeta' edge with
    | none => rw [hm'] at hedge; cases hedge
    | some em' =>
      rw [hm', Option.rel_some_some] at hedge
      obtain ⟨hkind, hdomain, hpose⟩ := hedge
      exact .inr ⟨em, em', rfl, rfl, hkind.symm, hdomain.symm, fun hs => (hpose hs).symm⟩

section Image

variable [Mul P] [Inv P] [Mul Q] [Inv Q] {φ : P → Q}
  {edgeMeta : EdgeId → Option (EdgeMeta P)} {edgeMeta' : EdgeId → Option (EdgeMeta Q)}

omit [Mul P] [Inv P] [Mul Q] [Inv Q] in
theorem FoldState.append_image (st : FoldState P) (s : Step P) :
    (st.map φ).append (s.map φ) = (st.append s).map φ := by
  unfold FoldState.append FoldState.map
  cases s with
  | static m =>
    simp only [FoldState.mk.injEq, and_true, Step.map]
    split_ifs <;> simp [Step.map]
  | dyn edge inverted =>
    simp only [FoldState.mk.injEq, and_true, Step.map]
    split_ifs <;> simp [Step.map]

omit [Inv P] [Inv Q] in
theorem FoldState.pushStatic_image (hmul : ∀ a b, φ (a * b) = φ a * φ b) (st : FoldState P)
    (cur : P) : (st.map φ).pushStatic (φ cur) = (st.pushStatic cur).map φ := by
  have hget : (st.map φ).out[(st.map φ).n - 1]? = st.out[st.n - 1]?.map (Step.map φ) :=
    List.getElem?_map ..
  unfold FoldState.pushStatic
  by_cases hlast : st.lastStatic = true
  · have hlast' : (st.map φ).lastStatic = true := hlast
    rw [if_pos hlast, if_pos hlast']
    by_cases hn : st.n ≤ maxDepth
    · have hn' : (st.map φ).n ≤ maxDepth := hn
      rw [if_pos hn, if_pos hn']
      cases h : st.out[st.n - 1]? with
      | none =>
        rw [h] at hget
        simp only [hget, Option.map_none]
      | some s =>
        rw [h] at hget
        cases s with
        | static prev =>
          simp only [hget, Option.map_some, Step.map]
          simp only [FoldState.map, List.map_set, Step.map, hmul]
        | dyn edge inverted => simp only [hget, Option.map_some, Step.map]
    · have hn' : ¬(st.map φ).n ≤ maxDepth := hn
      rw [if_neg hn, if_neg hn']
  · have hlast' : ¬(st.map φ).lastStatic = true := hlast
    rw [if_neg hlast, if_neg hlast']
    exact st.append_image (.static cur)

/-- One iteration of the loop of `fold_into`. -/
theorem foldStep_image (hmul : ∀ a b, φ (a * b) = φ a * φ b) (hinv : ∀ a, φ a⁻¹ = (φ a)⁻¹)
    (hmeta : MetaImage φ edgeMeta edgeMeta') (st : FoldState P) (edge : EdgeId)
    (inverted : Bool) : foldStep edgeMeta' (st.map φ) edge inverted =
      (foldStep edgeMeta st edge inverted).map (FoldState.map φ) := by
  unfold foldStep
  rcases hmeta.cases edge with ⟨hm, hm'⟩ | ⟨em, em', hm, hm', hkind, hdomain, hpose⟩
  · rw [hm, hm']
    rfl
  simp only [hm, hm', hkind, hdomain]
  by_cases hs : em.kind = .static
  · rw [if_pos hs, if_pos hs, hpose hs]
    have hcur : (if inverted then (φ em.staticPose)⁻¹ else φ em.staticPose) =
        φ (if inverted then em.staticPose⁻¹ else em.staticPose) := by
      cases inverted
      · rfl
      · exact (hinv _).symm
    rw [hcur, FoldState.pushStatic_image hmul]
    rfl
  · rw [if_neg hs, if_neg hs]
    have hdom : (st.map φ).domain = st.domain := rfl
    rw [hdom]
    cases hd : st.domain with
    | none =>
      exact congrArg Except.ok
        (({ st with domain := some em.domain } : FoldState P).append_image (.dyn edge inverted))
    | some d =>
      by_cases hne : d ≠ em.domain
      · simp only [if_pos hne]
        rfl
      · simp only [if_neg hne]
        exact congrArg Except.ok (st.append_image (.dyn edge inverted))

omit [Mul P] [Mul Q] in
/-- A path edge, resolved. -/
theorem resolve_image (hinv : ∀ a, φ a⁻¹ = (φ a)⁻¹) (hmeta : MetaImage φ edgeMeta edgeMeta')
    (e : EdgeId × Bool) : resolve edgeMeta' e = (resolve edgeMeta e).map φ := by
  unfold resolve
  rcases hmeta.cases e.1 with ⟨hm, hm'⟩ | ⟨em, em', hm, hm', hkind, -, hpose⟩
  · simp only [hm, hm']
    rfl
  simp only [hm, hm', hkind]
  by_cases hs : em.kind = .static
  · rw [if_pos hs, if_pos hs, hpose hs]
    cases e.2
    · rfl
    · exact congrArg Step.static (hinv _).symm
  · rw [if_neg hs, if_neg hs]
    rfl

theorem foldPath_image (hmul : ∀ a b, φ (a * b) = φ a * φ b) (hinv : ∀ a, φ a⁻¹ = (φ a)⁻¹)
    (hmeta : MetaImage φ edgeMeta edgeMeta') (path : List (EdgeId × Bool)) (st : FoldState P) :
    foldPath edgeMeta' (st.map φ) path =
      (foldPath edgeMeta st path).map (FoldState.map φ) := by
  induction path generalizing st with
  | nil => rfl
  | cons e path ih =>
    rw [foldPath, foldPath, foldStep_image hmul hinv hmeta]
    cases foldStep edgeMeta st e.1 e.2 with
    | error err => rfl
    | ok st' => exact ih st'

theorem foldInto_image (hmul : ∀ a b, φ (a * b) = φ a * φ b) (hinv : ∀ a, φ a⁻¹ = (φ a)⁻¹)
    (hmeta : MetaImage φ edgeMeta edgeMeta') (generation : ℕ) (ts ss : List ℕ) :
    foldInto edgeMeta' generation ts ss =
      (foldInto edgeMeta generation ts ss).map (Plan.map φ) := by
  have hpath := foldPath_image hmul hinv hmeta (foldEdges ts ss) .init
  unfold foldInto
  have hinit : (FoldState.init : FoldState P).map φ = .init := rfl
  rw [hinit] at hpath
  rw [hpath]
  cases foldPath edgeMeta .init (foldEdges ts ss) with
  | error e => rfl
  | ok st =>
    show (if st.n > maxDepth then _ else _) = Except.map _ (if st.n > maxDepth then _ else _)
    split_ifs <;> rfl

/-- The plan of the mapped edges is the mapped plan. -/
theorem compile_image (hmul : ∀ a b, φ (a * b) = φ a * φ b) (hinv : ∀ a, φ a⁻¹ = (φ a)⁻¹)
    (hmeta : MetaImage φ edgeMeta edgeMeta') (topo : TopologyView) (target source : FrameId) :
    compile edgeMeta' topo target source =
      (compile edgeMeta topo target source).map (Plan.map φ) := by
  unfold compile
  by_cases heq : target = source
  · rw [if_pos heq, if_pos heq]
    rfl
  · rw [if_neg heq, if_neg heq]
    cases walk topo target source with
    | error e => rfl
    | ok path => exact foldInto_image hmul hinv hmeta topo.generation path.1 path.2

end Image

/-! ## What a mapped plan folds to -/

/-- A map that keeps the products and the quotients of poses carries what steps fold to. -/
theorem foldPoses_image [Mul P] [Div P] [One P] [Mul Q] [Div Q] [One Q] {φ : P → Q}
    (hone : φ 1 = 1) (hmul : ∀ a b, φ (a * b) = φ a * φ b) (hdiv : ∀ a b, φ (a / b) = φ a / φ b)
    (pose : EdgeId → P) (steps : List (Step P)) :
    foldPoses (fun edge => φ (pose edge)) (steps.map (Step.map φ)) = φ (foldPoses pose steps) := by
  have hgen : ∀ (steps : List (Step P)) (acc : P),
      (steps.map (Step.map φ)).foldl (fun acc s => s.compose acc fun edge => φ (pose edge))
        (φ acc) = φ (steps.foldl (fun acc s => s.compose acc pose) acc) := by
    intro steps
    induction steps with
    | nil => exact fun _ => rfl
    | cons s steps ih =>
      intro acc
      have hstep : (s.map φ).compose (φ acc) (fun edge => φ (pose edge)) =
          φ (s.compose acc pose) := by
        cases s with
        | static m => exact (hmul ..).symm
        | dyn edge inverted =>
          cases inverted
          · exact (hmul ..).symm
          · exact (hdiv ..).symm
      rw [List.map_cons, List.foldl_cons, List.foldl_cons, hstep]
      exact ih _
  rw [foldPoses, ← hone]
  exact hgen steps 1

/-! ## The swapped pair of frames -/

theorem IsLca.symm {topo : TopologyView} {target source m : FrameId}
    (h : IsLca topo target source m) : IsLca topo source target m :=
  ⟨h.2.1, h.1, fun c hs ht => h.2.2 c ht hs⟩

/-- Of two climbs from one frame to one frame both take the same edges. -/
theorem Climbs.eq_of_forest {topo : TopologyView} {f g : FrameId} {es us : List ℕ}
    (hf : topo.IsForest) (h : Climbs topo f es g) (h' : Climbs topo f us g) : es = us := by
  obtain ⟨dist, hdist⟩ := hf
  have hd := h.dist fun f hlt => (hdist f hlt).2.2
  have hd' := h'.dist fun f hlt => (hdist f hlt).2.2
  obtain ⟨vs, rfl, -⟩ := h.prefix h' (by omega)
  rw [List.length_append] at hd'
  have hvs : vs = [] := List.eq_nil_of_length_eq_zero (by omega)
  rw [hvs, List.append_nil]

/-- Two frames have one lowest common ancestor. -/
theorem IsLca.unique {topo : TopologyView} {target source m m' : FrameId} (hf : topo.IsForest)
    (h : IsLca topo target source m) (h' : IsLca topo target source m') : m = m' := by
  obtain ⟨es, hes⟩ := h.2.2 m' h'.1 h'.2.1
  obtain ⟨us, hus⟩ := h'.2.2 m h.1 h.2.1
  obtain ⟨dist, hdist⟩ := hf
  have hd := hes.dist fun f hlt => (hdist f hlt).2.2
  have hd' := hus.dist fun f hlt => (hdist f hlt).2.2
  obtain rfl : es = [] := List.eq_nil_of_length_eq_zero (by omega)
  exact hes.eq_of_nil

end TfTree
