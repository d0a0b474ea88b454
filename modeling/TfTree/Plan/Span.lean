import Mathlib
import TfTree.Plan.Access
import TfTree.Ring.Race
import TfTree.Ring.Window

/-!
# The span of a plan

`Plan::span`, `newest_common`, `latest_common` and `at_extrapolating`
(`tf_tree_core/src/plan.rs`).

Results:
* `evalAt_ok_iff`, `evalAt_error`: a plan answers exactly inside the windows of all its
  dynamic edges.
* `at_iff_span`: the span, `at`, `latest_common` and the edge of `at_extrapolating` agree
  on an arena nobody writes.
-/

namespace TfTree

open Conc

variable {F : Type}

/-! ## Model of `plan.rs` -/

namespace ArenaView

variable (view : ArenaView)

/-- `Guard::newest_stamp` (lines 1705–1711). -/
def newestStamp (edge : EdgeId) : RingProg F (Except LookupError ℤ) :=
  match (view.sampler edge : Option (ℕ × SampleRing F)) with
  | none => return .error (.unknownEdge edge)
  | some (_, ring) => do
    let newest ← ring.newestStamp
    match newest with
    | some newest => return .ok newest
    | none => return .error (.noData edge)

/-- `Guard::window` (lines 1716–1725). -/
def window (edge : EdgeId) : RingProg F (Except LookupError (ℤ × ℤ)) :=
  match (view.sampler edge : Option (ℕ × SampleRing F)) with
  | none => return .error (.unknownEdge edge)
  | some (_, ring) => do
    let oldest ← ring.oldestStamp
    let newest ← ring.newestStamp
    match oldest, newest with
    | some oldest, some newest => return .ok (oldest, newest)
    | _, _ => return .error (.noData edge)

end ArenaView

/-- One more newest stamp in the loop of `newest_common`. -/
def closer (edge : EdgeId) (newest : ℤ) : Option (ℤ × EdgeId) → Option (ℤ × EdgeId)
  | none => some (newest, edge)
  | some (common, which) => if newest < common then some (newest, edge) else some (common, which)

/-- One more window in the loop of `span`. -/
def narrow (w : ℤ × ℤ) : Option (ℤ × ℤ) → Option (ℤ × ℤ)
  | none => some w
  | some (lo, hi) => some (max lo w.1, min hi w.2)

/-- The loop of `newest_common` (lines 773–782); `none` for `any == false`. -/
def newestCommonLoop (view : ArenaView) : List (Step (Iso3 F)) → Option (ℤ × EdgeId) →
    RingProg F (Except LookupError (Option (ℤ × EdgeId)))
  | [], acc => return .ok acc
  | .static _ :: steps, acc => newestCommonLoop view steps acc
  | .dyn edge _ :: steps, acc => do
    let newest ← view.newestStamp edge
    match newest with
    | .error e => return .error e
    | .ok newest => newestCommonLoop view steps (closer edge newest acc)

/-- The loop of `span` (lines 798–807). -/
def spanLoop (view : ArenaView) : List (Step (Iso3 F)) → Option (ℤ × ℤ) →
    RingProg F (Except LookupError (Option (ℤ × ℤ)))
  | [], acc => return .ok acc
  | .static _ :: steps, acc => spanLoop view steps acc
  | .dyn edge _ :: steps, acc => do
    let w ← view.window edge
    match w with
    | .error e => return .error e
    | .ok w => spanLoop view steps (narrow w acc)

/-- `i64::saturating_sub`. -/
def saturatingSub (a b : ℤ) : ℤ := max (-2 ^ 63) (min (a - b) (2 ^ 63 - 1))

/-- `Extrapolated`. -/
structure Extrapolated (F : Type) where
  pose : Iso3 F
  byNs : ℤ
  edge : EdgeId
  deriving DecidableEq

namespace Plan

variable (plan : Plan (Iso3 F)) (g : Guard)

/-- `Plan::newest_common` (lines 769–784). -/
def newestCommon : RingProg F (Except LookupError (Option (ℤ × EdgeId))) :=
  newestCommonLoop g.view plan.steps none

/-- `Plan::span` (lines 795–809). -/
def span : RingProg F (Except LookupError (Option (ℤ × ℤ))) :=
  match plan.checkGeneration g with
  | .error e => return .error e
  | .ok () => spanLoop g.view plan.steps none

/-- `Plan::static_only` (lines 840–848). -/
def staticOnly [Scalar F] : Iso3 F :=
  plan.steps.foldl (fun acc s =>
    match s with
    | .static m => acc * m
    | .dyn _ _ => acc) 1

variable [Kernels F]

/-- `Plan::fold_at_policy` (lines 445–461), on the cursors of the guard. -/
def foldAtPolicy (t : ℤ) (policy : ExtrapPolicy) (cursors : Cursors) :
    RingProg F (Except LookupError (Iso3 F) × Cursors) :=
  foldSteps (· * ·) composeDyn (fun k edge cs => g.view.sampleHinted cs k edge t policy)
    0 plan.steps 1 cursors

/-- `Plan::fold_latest_common` (lines 753–758), on the cursors of the guard. -/
def foldLatestCommon (cursors : Cursors) : RingProg F (Except LookupError (Iso3 F) × Cursors) := do
  let common ← plan.newestCommon g
  match common with
  | .error e => return (.error e, cursors)
  | .ok none => return (.ok plan.staticOnly, cursors)
  | .ok (some (common, _)) => plan.foldAt g common cursors

/-- `Plan::latest_common` (lines 747–750), on the cursors of the guard. -/
def latestCommon (cursors : Cursors) : RingProg F (Except LookupError (Iso3 F) × Cursors) :=
  match plan.checkGeneration g with
  | .error e => return (.error e, cursors)
  | .ok () => plan.foldLatestCommon g cursors

/-- `at_extrapolating_tagged` from the fold on (lines 730–741), with the result of
    `newest_common`. -/
def extrapolateFrom (nanos : ℤ) (policy : ExtrapPolicy) (cursors : Cursors)
    (common : Except LookupError (Option (ℤ × EdgeId))) :
    RingProg F (Except LookupError (Extrapolated F) × Cursors) := do
  let (out, cursors) ← plan.foldAtPolicy g nanos policy cursors
  match out, common with
  | .error e, _ => return (.error e, cursors)
  | .ok _, .error e => return (.error e, cursors)
  | .ok pose, .ok (some (common, which)) =>
    return (.ok ⟨pose, max (saturatingSub nanos common) 0, which⟩, cursors)
  | .ok pose, .ok none => return (.ok ⟨pose, 0, 0⟩, cursors)

/-- `Plan::at_extrapolating_tagged` (lines 718–742), on the cursors of the guard. -/
def atExtrapolatingTagged (nanos : ℤ) (domain : ℕ) (policy : ExtrapPolicy) (cursors : Cursors) :
    RingProg F (Except LookupError (Extrapolated F) × Cursors) :=
  match plan.check g domain with
  | .error e => return (.error e, cursors)
  | .ok () => do
    let common ← plan.newestCommon g
    plan.extrapolateFrom g nanos policy cursors common

end Plan

/-! ## Windows of the edges -/

/-- The ends of the window of an edge. -/
def ArenaView.windowOf (view : ArenaView) (m : RingArena F) (edge : EdgeId) : ℤ × ℤ :=
  match (view.sampler edge : Option (ℕ × SampleRing F)) with
  | some (_, ring) => (ring.oldest m, ring.newest m)
  | none => (0, 0)

/-- Every ring of the arena is settled, and every dynamic edge of the plan has one. -/
structure Plan.Served (plan : Plan (Iso3 F)) (view : ArenaView) (m : RingArena F) : Prop where
  settled : ∀ edge interp (ring : SampleRing F), view.sampler edge = some (interp, ring) →
    ring.Settled m
  known : ∀ edge inverted, .dyn edge inverted ∈ plan.steps → (view.rings edge).isSome

section Windows

variable {view : ArenaView} {m : RingArena F} {plan : Plan (Iso3 F)} {edge : EdgeId}

/-- The ring of a dynamic edge. -/
theorem Plan.Served.ring (h : plan.Served view m) {inverted : Bool}
    (hs : .dyn edge inverted ∈ plan.steps) : ∃ interp, ∃ ring : SampleRing F,
    view.sampler edge = some (interp, ring) ∧ ring.edge = edge ∧ ring.Settled m := by
  obtain ⟨⟨interp, capacity⟩, hring⟩ := Option.isSome_iff_exists.mp (h.known edge inverted hs)
  have hsampler : (view.sampler edge : Option (ℕ × SampleRing F)) =
      some (interp, ⟨edge, capacity⟩) := by
    rw [ArenaView.sampler, hring]
    rfl
  exact ⟨interp, _, hsampler, rfl, h.settled edge interp _ hsampler⟩

theorem Plan.Served.run_newestStamp (h : plan.Served view m) {inverted : Bool}
    (hs : .dyn edge inverted ∈ plan.steps) :
    (view.newestStamp edge).run RingOp.exec m = some (.ok (view.windowOf m edge).2, m) := by
  obtain ⟨interp, ring, hring, -, hset⟩ := h.ring hs
  unfold ArenaView.newestStamp ArenaView.windowOf
  rw [hring]
  dsimp only
  rw [Prog.run_seq hset.run_newestStamp]
  rfl

theorem Plan.Served.run_window (h : plan.Served view m) {inverted : Bool}
    (hs : .dyn edge inverted ∈ plan.steps) :
    (view.window edge).run RingOp.exec m = some (.ok (view.windowOf m edge), m) := by
  obtain ⟨interp, ring, hring, -, hset⟩ := h.ring hs
  unfold ArenaView.window ArenaView.windowOf
  rw [hring]
  dsimp only
  rw [Prog.run_seq hset.run_oldestStamp, Prog.run_seq hset.run_newestStamp]
  rfl

/-- The windows of the dynamic steps, narrowed one after the other. -/
def spanOf (w : EdgeId → ℤ × ℤ) : List (Step (Iso3 F)) → Option (ℤ × ℤ) → Option (ℤ × ℤ)
  | [], acc => acc
  | .static _ :: steps, acc => spanOf w steps acc
  | .dyn edge _ :: steps, acc => spanOf w steps (narrow (w edge) acc)

/-- The smallest newest stamp of the dynamic steps, and its first edge. -/
def commonOf (w : EdgeId → ℤ × ℤ) : List (Step (Iso3 F)) → Option (ℤ × EdgeId) →
    Option (ℤ × EdgeId)
  | [], acc => acc
  | .static _ :: steps, acc => commonOf w steps acc
  | .dyn edge _ :: steps, acc => commonOf w steps (closer edge (w edge).2 acc)

theorem Plan.Served.run_spanLoop (h : plan.Served view m) (steps : List (Step (Iso3 F)))
    (hsub : steps ⊆ plan.steps) (acc : Option (ℤ × ℤ)) :
    (spanLoop view steps acc).run RingOp.exec m =
      some (.ok (spanOf (view.windowOf m) steps acc), m) := by
  induction steps generalizing acc with
  | nil => rfl
  | cons s steps ih =>
    obtain ⟨hs, htail⟩ := List.cons_subset.mp hsub
    cases s with
    | static p => exact ih htail acc
    | dyn edge inverted =>
      rw [spanLoop, Prog.run_seq (h.run_window hs)]
      exact ih htail _

theorem Plan.Served.run_newestCommonLoop (h : plan.Served view m) (steps : List (Step (Iso3 F)))
    (hsub : steps ⊆ plan.steps) (acc : Option (ℤ × EdgeId)) :
    (newestCommonLoop view steps acc).run RingOp.exec m =
      some (.ok (commonOf (view.windowOf m) steps acc), m) := by
  induction steps generalizing acc with
  | nil => rfl
  | cons s steps ih =>
    obtain ⟨hs, htail⟩ := List.cons_subset.mp hsub
    cases s with
    | static p => exact ih htail acc
    | dyn edge inverted =>
      rw [newestCommonLoop, Prog.run_seq (h.run_newestStamp hs)]
      exact ih htail _

/-! ## The intersection of the windows -/

/-- `t` is in the window, if there is one. -/
def Within (t : ℤ) (acc : Option (ℤ × ℤ)) : Prop := ∀ w ∈ acc, w.1 ≤ t ∧ t ≤ w.2

theorem within_narrow {t : ℤ} {w : ℤ × ℤ} {acc : Option (ℤ × ℤ)} :
    Within t (narrow w acc) ↔ Within t acc ∧ w.1 ≤ t ∧ t ≤ w.2 := by
  unfold Within
  cases acc with
  | none => simp [narrow]
  | some v => simp [narrow]; omega

/-- The narrowed window is the intersection. -/
theorem within_spanOf {w : EdgeId → ℤ × ℤ} {t : ℤ} (steps : List (Step (Iso3 F)))
    (acc : Option (ℤ × ℤ)) : Within t (spanOf w steps acc) ↔ Within t acc ∧
      ∀ edge inverted, .dyn edge inverted ∈ steps → (w edge).1 ≤ t ∧ t ≤ (w edge).2 := by
  induction steps generalizing acc with
  | nil => simp [spanOf]
  | cons s steps ih =>
    cases s with
    | static p => simp [spanOf, ih]
    | dyn edge inverted =>
      rw [spanOf, ih, within_narrow, and_assoc, and_congr_right_iff]
      intro _
      constructor
      · rintro ⟨hw, h⟩ e i hmem
        rcases List.mem_cons.mp hmem with heq | hmem
        · cases heq
          exact hw
        · exact h e i hmem
      · intro h
        exact ⟨h edge inverted (List.mem_cons_self ..), fun e i hmem =>
          h e i (List.mem_cons_of_mem _ hmem)⟩

/-- The window so far ends at the common stamp so far. -/
def SameEnd (acc : Option (ℤ × ℤ)) (common : Option (ℤ × EdgeId)) : Prop :=
  acc.map Prod.snd = common.map Prod.fst

theorem sameEnd_step {acc : Option (ℤ × ℤ)} {common : Option (ℤ × EdgeId)} (h : SameEnd acc common)
    (w : ℤ × ℤ) (edge : EdgeId) : SameEnd (narrow w acc) (closer edge w.2 common) := by
  unfold SameEnd at *
  cases acc with
  | none =>
    cases common with
    | none => rfl
    | some c => cases h
  | some v =>
    cases common with
    | none => cases h
    | some c =>
      obtain ⟨lo, hi⟩ := v
      obtain ⟨common, which⟩ := c
      obtain rfl : hi = common := Option.some_inj.mp h
      simp only [narrow, closer]
      split_ifs with hlt
      · simp only [Option.map_some, min_eq_right hlt.le]
      · simp only [Option.map_some, min_eq_left (not_lt.mp hlt)]

theorem sameEnd_spanOf {w : EdgeId → ℤ × ℤ} (steps : List (Step (Iso3 F)))
    {acc : Option (ℤ × ℤ)} {common : Option (ℤ × EdgeId)} (h : SameEnd acc common) :
    SameEnd (spanOf w steps acc) (commonOf w steps common) := by
  induction steps generalizing acc common with
  | nil => exact h
  | cons s steps ih =>
    cases s with
    | static p => exact ih h
    | dyn edge inverted => exact ih (sameEnd_step h (w edge) edge)

/-- The common stamp comes from one of the dynamic steps. -/
theorem commonOf_all {w : EdgeId → ℤ × ℤ} {P : ℤ × EdgeId → Prop} (steps : List (Step (Iso3 F)))
    (hstep : ∀ edge inverted, .dyn edge inverted ∈ steps → P ((w edge).2, edge))
    {acc : Option (ℤ × EdgeId)} (h : ∀ c ∈ acc, P c) : ∀ c ∈ commonOf w steps acc, P c := by
  induction steps generalizing acc with
  | nil => exact h
  | cons s steps ih =>
    have htail := fun edge inverted hs => hstep edge inverted (List.mem_cons_of_mem s hs)
    cases s with
    | static p => exact ih htail h
    | dyn edge inverted =>
      have hedge := hstep edge inverted (List.mem_cons_self ..)
      refine ih htail fun c hc => ?_
      cases acc with
      | none =>
        cases hc
        exact hedge
      | some a =>
        obtain ⟨common, which⟩ := a
        simp only [closer] at hc
        split_ifs at hc with hlt
        · cases hc
          exact hedge
        · exact h c hc

/-- The span has an end exactly if there is a dynamic step. -/
theorem spanOf_eq_none {w : EdgeId → ℤ × ℤ} (steps : List (Step (Iso3 F)))
    (acc : Option (ℤ × ℤ)) : spanOf w steps acc = none ↔
      acc = none ∧ ∀ edge inverted, .dyn edge inverted ∉ steps := by
  induction steps generalizing acc with
  | nil => simp [spanOf]
  | cons s steps ih =>
    cases s with
    | static p => simp [spanOf, ih]
    | dyn edge inverted =>
      rw [spanOf, ih]
      constructor
      · rintro ⟨hnarrow, -⟩
        cases acc <;> cases hnarrow
      · rintro ⟨-, hall⟩
        exact absurd (List.mem_cons_self ..) (hall edge inverted)

end Windows

/-! ## Answers of a plan -/

section Still

variable [Kernels F] {m : RingArena F} {plan : Plan (Iso3 F)} {g : Guard} {view : ArenaView}
  {pose : EdgeId → ℤ → Except LookupError (Iso3 F)}
  {twist : EdgeId → ℤ → Except LookupError (Iso3 F × Twist F)}

omit [Kernels F] in
theorem Plan.Served.readable (h : plan.Served view m) (edge : EdgeId) : view.Readable m edge :=
  fun interp ring hring => (h.settled edge interp ring hring).readable

/-- What the readers answer on an edge is what `sample` answers. -/
theorem Reads.sample (hr : Reads m view pose twist) {edge : EdgeId} {interp : ℕ}
    {ring : SampleRing F} (hring : view.sampler edge = some (interp, ring))
    (hread : ring.Readable m) (t : ℤ) :
    (ring.sample (InterpPolicy.fromU8 interp).eval t .error).run RingOp.exec m =
      some (pose edge t, m) := by
  obtain ⟨v, c, hv, hv'⟩ := TfTree.sampleFrom_agrees hread t .error 0
    (InterpPolicy.fromU8 interp).eval
  obtain ⟨c', hc⟩ := hr.sampleFrom edge t 0
  unfold ArenaView.sampleFrom at hc
  rw [hring] at hc
  cases hv'.symm.trans hc
  exact hv

/-- A dynamic edge answers inside its window. -/
theorem Plan.Served.pose_inside (h : plan.Served view m) (hr : Reads m view pose twist)
    {edge : EdgeId} {inverted : Bool} (hs : .dyn edge inverted ∈ plan.steps) {t : ℤ}
    (hlo : (view.windowOf m edge).1 ≤ t) (hhi : t ≤ (view.windowOf m edge).2) :
    ∃ p, pose edge t = .ok p := by
  obtain ⟨interp, ring, hring, -, hset⟩ := h.ring hs
  unfold ArenaView.windowOf at hlo hhi
  rw [hring] at hlo hhi
  obtain ⟨p, hp⟩ := hset.sample_inside (InterpPolicy.fromU8 interp).eval .error hlo hhi
  have hsample := hr.sample hring hset.readable t
  exact ⟨p, congrArg Prod.fst (Option.some_inj.mp (hsample.symm.trans hp))⟩

/-- A dynamic edge refuses a stamp outside its window. -/
theorem Plan.Served.pose_outside (h : plan.Served view m) (hr : Reads m view pose twist)
    {edge : EdgeId} {inverted : Bool} (hs : .dyn edge inverted ∈ plan.steps) {t : ℤ}
    (ht : ¬ ((view.windowOf m edge).1 ≤ t ∧ t ≤ (view.windowOf m edge).2)) :
    pose edge t =
      .error (.extrapolation edge t (view.windowOf m edge).1 (view.windowOf m edge).2) := by
  obtain ⟨interp, ring, hring, rfl, hset⟩ := h.ring hs
  have hwin : view.windowOf m ring.edge = (ring.oldest m, ring.newest m) := by
    unfold ArenaView.windowOf
    rw [hring]
  rw [hwin] at ht ⊢
  have hp := hset.sample_outside (InterpPolicy.fromU8 interp).eval (t := t) (by omega)
  have hsample := hr.sample hring hset.readable t
  exact congrArg Prod.fst (Option.some_inj.mp (hsample.symm.trans hp))

omit [Kernels F] in
/-- The fold of steps whose edges all answer. -/
theorem evalSteps_ok {A V : Type} {onStatic : A → Iso3 F → A} {onDyn : A → Bool → V → A}
    {answer : EdgeId → Except LookupError V} {steps : List (Step (Iso3 F))}
    (h : ∀ edge inverted, .dyn edge inverted ∈ steps → ∃ v, answer edge = .ok v) (acc : A) :
    ∃ a, evalSteps onStatic onDyn answer steps acc = .ok a := by
  induction steps generalizing acc with
  | nil => exact ⟨acc, rfl⟩
  | cons s steps ih =>
    have htail := ih fun edge inverted hs => h edge inverted (List.mem_cons_of_mem s hs)
    cases s with
    | static p => exact htail _
    | dyn edge inverted =>
      obtain ⟨v, hv⟩ := h edge inverted (List.mem_cons_self ..)
      rw [evalSteps, hv]
      exact htail _

omit [Kernels F] in
/-- The fold of steps one of whose edges refuses fails with the error of an edge. -/
theorem evalSteps_error {A V : Type} {onStatic : A → Iso3 F → A} {onDyn : A → Bool → V → A}
    {answer : EdgeId → Except LookupError V} {steps : List (Step (Iso3 F))} {edge : EdgeId}
    {inverted : Bool} (hs : .dyn edge inverted ∈ steps) {e : LookupError}
    (he : answer edge = .error e) (acc : A) :
    ∃ edge' inverted' e', .dyn edge' inverted' ∈ steps ∧ answer edge' = .error e' ∧
      evalSteps onStatic onDyn answer steps acc = .error e' := by
  induction steps generalizing acc with
  | nil => cases hs
  | cons s steps ih =>
    cases s with
    | static p =>
      have htail : .dyn edge inverted ∈ steps := by
        rcases List.mem_cons.mp hs with heq | hs
        · cases heq
        · exact hs
      obtain ⟨edge', inverted', e', hs', he', heval⟩ := ih htail (onStatic acc p)
      exact ⟨edge', inverted', e', List.mem_cons_of_mem _ hs', he', heval⟩
    | dyn edge₁ inverted₁ =>
      cases hv : answer edge₁ with
      | error e₁ =>
        refine ⟨edge₁, inverted₁, e₁, List.mem_cons_self .., hv, ?_⟩
        rw [evalSteps, hv]
        rfl
      | ok v =>
        have htail : .dyn edge inverted ∈ steps := by
          rcases List.mem_cons.mp hs with heq | hs
          · cases heq
            rw [he] at hv
            cases hv
          · exact hs
        obtain ⟨edge', inverted', e', hs', he', heval⟩ := ih htail (onDyn acc inverted₁ v)
        refine ⟨edge', inverted', e', List.mem_cons_of_mem _ hs', he', ?_⟩
        rw [evalSteps, hv]
        exact heval

/-- A plan one of whose edges refuses a stamp reports the error of an edge. -/
theorem evalAt_refuses {edge : EdgeId} {inverted : Bool} (hs : .dyn edge inverted ∈ plan.steps)
    {t : ℤ} {e : LookupError} (he : pose edge t = .error e) :
    ∃ edge' inverted' e', .dyn edge' inverted' ∈ plan.steps ∧ pose edge' t = .error e' ∧
      plan.evalAt pose t = .error e' :=
  evalSteps_error hs he 1

/-- The window of a plan. -/
def Plan.spanIn (plan : Plan (Iso3 F)) (view : ArenaView) (m : RingArena F) : Option (ℤ × ℤ) :=
  spanOf (view.windowOf m) plan.steps none

omit [Kernels F] in
theorem Plan.within_spanIn {t : ℤ} : Within t (plan.spanIn view m) ↔
    ∀ edge inverted, .dyn edge inverted ∈ plan.steps →
      (view.windowOf m edge).1 ≤ t ∧ t ≤ (view.windowOf m edge).2 := by
  unfold Plan.spanIn
  rw [within_spanOf]
  exact and_iff_right fun w hw => by cases hw

/-- A plan answers exactly inside its window. -/
theorem Plan.Served.evalAt_ok_iff (h : plan.Served view m) (hr : Reads m view pose twist) (t : ℤ) :
    (∃ p, plan.evalAt pose t = .ok p) ↔ Within t (plan.spanIn view m) := by
  rw [Plan.within_spanIn]
  constructor
  · rintro ⟨p, hp⟩ edge inverted hs
    by_contra hout
    obtain ⟨-, -, e, -, -, heval⟩ := evalAt_refuses hs (h.pose_outside hr hs hout)
    cases heval.symm.trans hp
  · intro hin
    exact evalSteps_ok (fun edge inverted hs =>
      h.pose_inside hr hs (hin edge inverted hs).1 (hin edge inverted hs).2) _

/-- Outside its window it reports `Extrapolation` for one of its edges. -/
theorem Plan.Served.evalAt_error (h : plan.Served view m) (hr : Reads m view pose twist) {t : ℤ}
    (ht : ¬ Within t (plan.spanIn view m)) :
    ∃ edge oldest newest, plan.evalAt pose t = .error (.extrapolation edge t oldest newest) := by
  rw [Plan.within_spanIn] at ht
  obtain ⟨edge, ht⟩ := not_forall.mp ht
  obtain ⟨inverted, ht⟩ := not_forall.mp ht
  obtain ⟨hs, hout⟩ := Classical.not_imp.mp ht
  obtain ⟨edge', inverted', e, hs', he, heval⟩ := evalAt_refuses hs (h.pose_outside hr hs hout)
  by_cases hin : (view.windowOf m edge').1 ≤ t ∧ t ≤ (view.windowOf m edge').2
  · obtain ⟨p, hp⟩ := h.pose_inside hr hs' hin.1 hin.2
    cases he.symm.trans hp
  · have hext := h.pose_outside hr hs' hin
    cases he.symm.trans hext
    exact ⟨edge', _, _, heval⟩

/-! ## Agreement of the lookups -/

/-- What `at_extrapolating` measures, on a memory nobody changes. -/
theorem Plan.Served.edge_newest (h : plan.Served g.view m) {nanos : ℤ} {domain : ℕ}
    {policy : ExtrapPolicy} {cs cs' : Cursors} {x : Extrapolated F} {m' : RingArena F}
    (hrun : (plan.atExtrapolatingTagged g nanos domain policy cs).run RingOp.exec m =
      some ((.ok x, cs'), m')) {lo hi : ℤ} (hspan : plan.spanIn g.view m = some (lo, hi)) :
    (g.view.windowOf m x.edge).2 = hi ∧ ∃ inverted, .dyn x.edge inverted ∈ plan.steps := by
  unfold Plan.atExtrapolatingTagged Plan.newestCommon at hrun
  cases hcheck : plan.check g domain with
  | error e =>
    rw [hcheck] at hrun
    cases hrun
  | ok u =>
    rw [hcheck] at hrun
    dsimp only at hrun
    rw [Prog.run_seq (h.run_newestCommonLoop plan.steps (List.Subset.refl _) none)] at hrun
    have hend : SameEnd (plan.spanIn g.view m) (commonOf (g.view.windowOf m) plan.steps none) :=
      sameEnd_spanOf plan.steps rfl
    have hnewest : ∀ c ∈ commonOf (g.view.windowOf m) plan.steps none,
        (g.view.windowOf m c.2).2 = c.1 ∧ ∃ inverted, .dyn c.2 inverted ∈ plan.steps :=
      commonOf_all plan.steps (fun edge inverted hs => ⟨rfl, inverted, hs⟩)
        fun c hc => by cases hc
    cases hcommon : commonOf (g.view.windowOf m) plan.steps none with
    | none =>
      rw [hspan, hcommon] at hend
      cases hend
    | some c =>
      rw [hcommon] at hrun hnewest hend
      rw [hspan] at hend
      unfold Plan.extrapolateFrom at hrun
      rw [Prog.run_bind] at hrun
      obtain ⟨⟨⟨out, cs₁⟩, m₁⟩, -, hrest⟩ := Option.bind_eq_some_iff.mp hrun
      cases out with
      | error e => cases hrest
      | ok p =>
        cases hrest
        obtain ⟨hnew, hmem⟩ := hnewest c rfl
        rw [hnew]
        exact ⟨(Option.some_inj.mp hend).symm, hmem⟩

/-- **Main theorem.** On an arena nobody writes whose dynamic edges have data, with the
    checks of the plan passed: `at` answers exactly inside the span; `latest_common` is
    `at` at the end of the span, and reports `Extrapolation` when the span is empty; and
    the edge of `at_extrapolating` ends with the span. -/
theorem at_iff_span {domain : ℕ} (hcheck : plan.check g domain = .ok ())
    (h : plan.Served g.view m) : ∃ span, (plan.span g).run RingOp.exec m = some (.ok span, m) ∧
    (span = none ↔ ∀ edge inverted, .dyn edge inverted ∉ plan.steps) ∧
    (∀ t cs, (∃ p cs', (plan.atTagged g t domain cs).run RingOp.exec m =
      some ((.ok p, cs'), m)) ↔ Within t span) ∧
    (∀ lo hi cs, span = some (lo, hi) → if lo ≤ hi then
      ∃ p cs' cs'', (plan.latestCommon g cs).run RingOp.exec m = some ((.ok p, cs'), m) ∧
        (plan.atTagged g hi domain cs).run RingOp.exec m = some ((.ok p, cs''), m)
      else ∃ edge oldest newest cs', (plan.latestCommon g cs).run RingOp.exec m =
        some ((.error (.extrapolation edge hi oldest newest), cs'), m)) ∧
    ∀ lo hi nanos policy cs x cs' m', span = some (lo, hi) →
      (plan.atExtrapolatingTagged g nanos domain policy cs).run RingOp.exec m =
        some ((.ok x, cs'), m') →
      (g.view.newestStamp x.edge).run RingOp.exec m = some (.ok hi, m) := by
  obtain ⟨pose, twist, hr⟩ := exists_reads h.readable
  have hgen : plan.checkGeneration g = .ok () := by
    unfold Plan.check at hcheck
    cases hg : plan.checkGeneration g with
    | error e =>
      rw [hg] at hcheck
      cases hcheck
    | ok u => rfl
  have hat : ∀ t cs, Answers m (plan.atTagged g t domain cs) (plan.evalAt pose t) := by
    intro t cs
    have hans : Answers m (plan.atTagged g t domain cs)
        (plan.check g domain >>= fun _ => plan.evalAt pose t) := atTagged_answers hr t domain cs
    rw [hcheck] at hans
    exact hans
  have hcommon := h.run_newestCommonLoop plan.steps (List.Subset.refl _) none
  have hend : SameEnd (plan.spanIn g.view m) (commonOf (g.view.windowOf m) plan.steps none) :=
    sameEnd_spanOf plan.steps rfl
  refine ⟨plan.spanIn g.view m, ?_, ?_, fun t cs => ?_, fun lo hi cs hspan => ?_, ?_⟩
  · unfold Plan.span
    rw [hgen]
    exact h.run_spanLoop plan.steps (List.Subset.refl _) none
  · unfold Plan.spanIn
    rw [spanOf_eq_none]
    exact and_iff_right rfl
  · rw [← h.evalAt_ok_iff hr]
    obtain ⟨c, hc⟩ := hat t cs
    constructor
    · rintro ⟨p, cs', hp⟩
      exact ⟨p, congrArg (fun o => o.1.1) (Option.some_inj.mp (hc.symm.trans hp))⟩
    · rintro ⟨p, hp⟩
      exact ⟨p, c, hp ▸ hc⟩
  · -- `latest_common` folds at the end of the span
    have hlatest : Answers m (plan.latestCommon g cs) (plan.evalAt pose hi) := by
      rw [hspan] at hend
      unfold Plan.latestCommon Plan.foldLatestCommon Plan.newestCommon
      rw [hgen]
      dsimp only
      cases hc : commonOf (g.view.windowOf m) plan.steps none with
      | none =>
        rw [hc] at hend
        cases hend
      | some c =>
        rw [hc] at hcommon hend
        obtain rfl : hi = c.1 := Option.some_inj.mp hend
        have hans : Answers m (plan.foldAt g c.1 cs) (plan.evalAt pose c.1) :=
          foldAt_answers hr c.1 cs
        obtain ⟨cs', hfold⟩ := hans
        refine ⟨cs', ?_⟩
        rw [Prog.run_seq hcommon]
        exact hfold
    have hwithin : Within hi (plan.spanIn g.view m) ↔ lo ≤ hi := by
      rw [hspan]
      unfold Within
      simp
    obtain ⟨cs', hrun⟩ := hlatest
    obtain ⟨cs'', hrun'⟩ := hat hi cs
    split_ifs with hle
    · obtain ⟨p, hp⟩ := (h.evalAt_ok_iff hr hi).mpr (hwithin.mpr hle)
      rw [hp] at hrun hrun'
      exact ⟨p, cs', cs'', hrun, hrun'⟩
    · obtain ⟨edge, oldest, newest, he⟩ := h.evalAt_error hr (t := hi) (by rwa [hwithin])
      rw [he] at hrun
      exact ⟨edge, oldest, newest, cs', hrun⟩
  · intro lo hi nanos policy cs x cs' m' hspan hrun
    obtain ⟨rfl, inverted, hmem⟩ := h.edge_newest hrun hspan
    exact h.run_newestStamp hmem

/-- The plan of one dynamic edge. -/
def linePlan : Plan (Iso3 ℚ) where
  generation := 0
  steps := [.dyn 0 false]
  domain := 0
  dynCount := 1
  firstDyn := 0
  steps_le := maxDepth_pos

def lineGuard : Guard := ⟨⟨fun edge => if edge = 0 then some (0, 4) else none⟩, 0⟩

theorem line_served : linePlan.Served lineGuard.view lineArena where
  settled := by
    intro edge interp ring hring
    have hw : ((⟨0, 4⟩ : SampleRing ℚ).pushAll linePoses).run RingOp.exec emptyArena =
        some ((), lineArena) := rfl
    have hok := Prog.wp_run (pushAll_spec (r := (⟨0, 4⟩ : SampleRing ℚ)) (m := emptyArena) ⟨2, rfl⟩
      (by decide) linePoses (.of_empty rfl rfl)) hw
    by_cases he : edge = 0
    · subst he
      cases hring
      exact hok.settled (by decide) (by decide) (by decide)
    · have hnone : lineGuard.view.rings edge = none := if_neg he
      rw [ArenaView.sampler, hnone] at hring
      cases hring
  known := by
    intro edge inverted hs
    cases List.mem_singleton.mp hs
    rfl

theorem at_iff_span_line : ∃ span,
    (linePlan.span lineGuard).run RingOp.exec lineArena = some (.ok span, lineArena) ∧
    ∀ t cs, (∃ p cs', (linePlan.atTagged lineGuard t 0 cs).run RingOp.exec lineArena =
      some ((.ok p, cs'), lineArena)) ↔ Within t span := by
  have hcheck : linePlan.check lineGuard 0 = .ok () := rfl
  obtain ⟨span, hspan, -, hat, -⟩ := at_iff_span hcheck line_served
  exact ⟨span, hspan, hat⟩

end Still

end TfTree
