import TfTree.Plan.Guard

/-!
# Evaluating a plan

The single lookups of a `Plan` (`tf_tree_core/src/plan.rs`): `at` and
`at_with_derivatives`, with the checks before them. The folds of the source differ
in how a dynamic step is sampled, so they are one loop over the sampler
(`foldSteps`). The diagnostic counters are left out.

Results:
* `foldSteps_answers`: over a sampler whose answers do not depend on its cursors,
  the loop answers `evalSteps`.
* `foldAt_answers`, `foldAtCursors_answers`: the folds agree on rings nobody writes.
* `evalAt_eq_foldPoses`: what a lookup answers is the fold of the poses of the edges.
* `atTagged_answers`, `atWithDerivativesTagged_answers`: a single lookup is a
  function of the stamp.
-/

namespace TfTree

open Conc

variable {F : Type}

/-! ## Model of `plan.rs` -/

/-- `DETACHED`. -/
def detached : ℕ := 2 ^ 64 - 1

/-- `Guard`, without its cursor cells, which the readers thread. -/
structure Guard where
  view : ArenaView
  generation : ℕ

/-- The cells of a guard, or the cursors of a batch: one for each step. -/
abbrev Cursors := ℕ → ℕ

/-- The loop shared by the folds of the source, over the sampler of step `k`. -/
def foldSteps {A V C : Type} (onStatic : A → Iso3 F → A) (onDyn : A → Bool → V → A)
    (sample : ℕ → EdgeId → C → RingProg F (Except LookupError V × C)) :
    ℕ → List (Step (Iso3 F)) → A → C → RingProg F (Except LookupError A × C)
  | _, [], acc, c => return (.ok acc, c)
  | k, .static m :: steps, acc, c =>
    foldSteps onStatic onDyn sample (k + 1) steps (onStatic acc m) c
  | k, .dyn edge inverted :: steps, acc, c => do
    let (out, c) ← sample k edge c
    match out with
    | .error e => return (.error e, c)
    | .ok p => foldSteps onStatic onDyn sample (k + 1) steps (onDyn acc inverted p) c

section Compose

variable [Scalar F]

/-- How a dynamic step enters `fold_at`. -/
def composeDyn (acc : Iso3 F) (inverted : Bool) (p : Iso3 F) : Iso3 F :=
  if inverted then acc / p else acc * p

/-- How a static step enters `fold_with_derivatives`. -/
def composeStaticTwist (acc : Iso3 F × Twist F) (m : Iso3 F) : Iso3 F × Twist F :=
  (acc.1 * m, m.adjointInv acc.2)

/-- How a dynamic step enters `fold_with_derivatives`. -/
def composeDynTwist (acc : Iso3 F × Twist F) (inverted : Bool) (s : Iso3 F × Twist F) :
    Iso3 F × Twist F :=
  if inverted then (acc.1 / s.1, s.1.adjoint (acc.2.sub s.2))
  else (acc.1 * s.1, (s.1.adjointInv acc.2).add s.2)

end Compose

namespace Plan

variable (plan : Plan (Iso3 F)) (g : Guard)

/-- `Plan::has_dynamic`. -/
def hasDynamic : Bool := plan.dynCount ≠ 0

/-- `Plan::check_generation` (lines 395–408). -/
def checkGeneration : Except LookupError Unit :=
  if g.generation = plan.generation then .ok ()
  else if g.generation = detached then .error .childDetached
  else .error (.topologyChanged plan.generation g.generation)

/-- `Plan::check_domain_tag` (lines 411–419). -/
def checkDomainTag (domain : ℕ) : Except LookupError Unit :=
  if plan.hasDynamic ∧ domain ≠ plan.domain then .error (.timeDomainMismatch plan.domain domain)
  else .ok ()

/-- The two checks, in the order every lookup makes them. -/
def check (domain : ℕ) : Except LookupError Unit := do
  plan.checkGeneration g
  plan.checkDomainTag domain

variable [Kernels F]

/-- `Plan::fold_at` (lines 424–440), on the cursors of the guard. -/
def foldAt (t : ℤ) (cursors : Cursors) : RingProg F (Except LookupError (Iso3 F) × Cursors) :=
  foldSteps (· * ·) composeDyn (fun k edge cs => g.view.sampleHinted cs k edge t .error)
    0 plan.steps 1 cursors

/-- `Plan::fold_at_cursors` (lines 466–487). -/
def foldAtCursors (t : ℤ) (cursors : Cursors) :
    RingProg F (Except LookupError (Iso3 F) × Cursors) :=
  foldSteps (· * ·) composeDyn
    (fun k edge cs => do
      let (out, c) ← g.view.sampleFrom edge t .error (cs k)
      return (out, upd cs k c))
    0 plan.steps 1 cursors

/-- `Plan::at_tagged` (lines 514–518), on the cursors of the guard. -/
def atTagged (nanos : ℤ) (domain : ℕ) (cursors : Cursors) :
    RingProg F (Except LookupError (Iso3 F) × Cursors) :=
  match plan.check g domain with
  | .error e => return (.error e, cursors)
  | .ok () => plan.foldAt g nanos cursors

/-- `Plan::fold_at_with_derivatives` (lines 584–586). -/
def foldAtWithDerivatives (t : ℤ) :
    RingProg F (Except LookupError (Iso3 F × Twist F) × Unit) :=
  foldSteps composeStaticTwist composeDynTwist
    (fun _ edge _ => do
      let out ← g.view.sampleWithTwist edge t .error
      return (out, ()))
    0 plan.steps (1, Twist.zero) ()

/-- `Plan::fold_at_with_derivatives_cursors` (lines 590–599). -/
def foldAtWithDerivativesCursors (t : ℤ) (cursors : Cursors) :
    RingProg F (Except LookupError (Iso3 F × Twist F) × Cursors) :=
  foldSteps composeStaticTwist composeDynTwist
    (fun k edge cs => do
      let (out, c) ← g.view.sampleWithTwistFrom edge t .error (cs k)
      return (out, upd cs k c))
    0 plan.steps (1, Twist.zero) cursors

/-- `Plan::at_with_derivatives_tagged` (lines 630–648): the pose and the twist of the
    `Sample`. -/
def atWithDerivativesTagged (nanos : ℤ) (domain : ℕ) :
    RingProg F (Except LookupError (Iso3 F × Twist F) × Unit) :=
  match plan.check g domain with
  | .error e => return (.error e, ())
  | .ok () => plan.foldAtWithDerivatives g nanos

end Plan

/-! ## Answers -/

section Answers

variable {m : RingArena F} {α β C D : Type} {v : α} {w : β}

/-- The program answers `v`, whatever cursor it leaves, and changes nothing. -/
def Answers (m : RingArena F) (q : RingProg F (α × C)) (v : α) : Prop :=
  ∃ c, q.run RingOp.exec m = some ((v, c), m)

theorem Answers.ret (v : α) (c : C) : Answers m (.ret (v, c)) v := ⟨c, rfl⟩

theorem Answers.bind {q : RingProg F (α × C)} {f : α × C → RingProg F (β × D)}
    (hq : Answers m q v) (hf : ∀ c, Answers m (f (v, c)) w) : Answers m (q >>= f) w := by
  obtain ⟨c, hc⟩ := hq
  obtain ⟨d, hd⟩ := hf c
  exact ⟨d, by rw [Prog.run_bind, hc, Option.bind_some, hd]⟩

/-- The fold of the steps, as a function of the answers of the edges. -/
def evalSteps {A V : Type} (onStatic : A → Iso3 F → A) (onDyn : A → Bool → V → A)
    (answer : EdgeId → Except LookupError V) :
    List (Step (Iso3 F)) → A → Except LookupError A
  | [], acc => .ok acc
  | .static p :: steps, acc => evalSteps onStatic onDyn answer steps (onStatic acc p)
  | .dyn edge inverted :: steps, acc =>
    (answer edge).map (onDyn acc inverted) >>= evalSteps onStatic onDyn answer steps

/-- The loop of a fold, over a sampler whose answers do not depend on its cursors. -/
theorem foldSteps_answers {A V : Type} {onStatic : A → Iso3 F → A} {onDyn : A → Bool → V → A}
    {sample : ℕ → EdgeId → C → RingProg F (Except LookupError V × C)}
    {answer : EdgeId → Except LookupError V}
    (h : ∀ k edge c, Answers m (sample k edge c) (answer edge)) (k : ℕ)
    (steps : List (Step (Iso3 F))) (acc : A) (c : C) :
    Answers m (foldSteps onStatic onDyn sample k steps acc c)
      (evalSteps onStatic onDyn answer steps acc) := by
  induction steps generalizing k acc c with
  | nil => exact .ret _ _
  | cons s steps ih =>
    cases s with
    | static p => exact ih (k + 1) (onStatic acc p) c
    | dyn edge inverted =>
      refine (h k edge c).bind fun c' => ?_
      rw [evalSteps]
      cases answer edge with
      | error e => exact .ret _ _
      | ok p => exact ih (k + 1) (onDyn acc inverted p) c'

end Answers

/-! ## Single lookups on rings nobody writes -/

section Still

variable [Kernels F] {m : RingArena F} {plan : Plan (Iso3 F)} {g : Guard}

/-- What every reader of an edge answers at a stamp: its pose, and its pose with its
    twist. -/
structure Reads (m : RingArena F) (view : ArenaView)
    (pose : EdgeId → ℤ → Except LookupError (Iso3 F))
    (twist : EdgeId → ℤ → Except LookupError (Iso3 F × Twist F)) : Prop where
  sampleFrom : ∀ edge t cursor, Answers m (view.sampleFrom edge t .error cursor) (pose edge t)
  sampleHinted : ∀ edge t cursors k,
    Answers m (view.sampleHinted cursors k edge t .error) (pose edge t)
  sampleWithTwist : ∀ edge t,
    (view.sampleWithTwist edge t .error).run RingOp.exec m = some (twist edge t, m)
  sampleWithTwistFrom : ∀ edge t cursor,
    Answers m (view.sampleWithTwistFrom edge t .error cursor) (twist edge t)

/-- On readable rings the answers exist. -/
theorem exists_reads {view : ArenaView} (hr : ∀ edge, view.Readable m edge) :
    ∃ pose twist, Reads m view pose twist := by
  have hpose : ∀ edge t, ∃ v, (view.sample edge t .error).run RingOp.exec m = some (v, m) := by
    intro edge t
    obtain ⟨v, -, hv, -⟩ := ArenaView.sampleFrom_agrees (hr edge) t .error 0
    exact ⟨v, hv⟩
  have htwist : ∀ edge t,
      ∃ v, (view.sampleWithTwist edge t .error).run RingOp.exec m = some (v, m) := by
    intro edge t
    obtain ⟨v, -, hv, -⟩ := ArenaView.sampleWithTwistFrom_agrees (hr edge) t .error 0
    exact ⟨v, hv⟩
  choose pose hpose using hpose
  choose twist htwist using htwist
  refine ⟨pose, twist, ?_, ?_, htwist, ?_⟩
  · intro edge t cursor
    obtain ⟨v, c, hv, hc⟩ := ArenaView.sampleFrom_agrees (hr edge) t .error cursor
    rw [hpose] at hv
    cases hv
    exact ⟨c, hc⟩
  · intro edge t cursors k
    obtain ⟨v, c, hv, hc⟩ := ArenaView.sampleHinted_agrees (hr edge) t .error cursors k
    rw [hpose] at hv
    cases hv
    exact ⟨c, hc⟩
  · intro edge t cursor
    obtain ⟨v, c, hv, hc⟩ := ArenaView.sampleWithTwistFrom_agrees (hr edge) t .error cursor
    rw [htwist] at hv
    cases hv
    exact ⟨c, hc⟩

variable {pose : EdgeId → ℤ → Except LookupError (Iso3 F)}
  {twist : EdgeId → ℤ → Except LookupError (Iso3 F × Twist F)}

/-- The pose of a plan at a stamp, from the answers of its edges. -/
def Plan.evalAt (plan : Plan (Iso3 F)) (pose : EdgeId → ℤ → Except LookupError (Iso3 F)) (t : ℤ) :
    Except LookupError (Iso3 F) :=
  evalSteps (· * ·) composeDyn (pose · t) plan.steps 1

/-- Where every dynamic edge answers, the plan answers the fold of their poses. -/
theorem evalAt_eq_foldPoses {t : ℤ} {p : EdgeId → Iso3 F}
    (h : ∀ edge inverted, .dyn edge inverted ∈ plan.steps → pose edge t = .ok (p edge)) :
    plan.evalAt pose t = .ok (foldPoses p plan.steps) := by
  have hgen : ∀ steps : List (Step (Iso3 F)),
      (∀ edge inverted, .dyn edge inverted ∈ steps → pose edge t = .ok (p edge)) →
      ∀ acc, evalSteps (· * ·) composeDyn (pose · t) steps acc =
        .ok (steps.foldl (fun acc s => s.compose acc p) acc) := by
    intro steps
    induction steps with
    | nil => exact fun _ _ => rfl
    | cons s steps ih =>
      intro h acc
      have htail := ih fun edge inverted hmem => h edge inverted (List.mem_cons_of_mem s hmem)
      cases s with
      | static m => exact htail (acc * m)
      | dyn edge inverted =>
        rw [evalSteps, h edge inverted (List.mem_cons_self ..)]
        exact htail _
  exact hgen plan.steps h 1

/-- The pose and the twist of a plan at a stamp, from the answers of its edges. -/
def Plan.evalTwistAt (plan : Plan (Iso3 F))
    (twist : EdgeId → ℤ → Except LookupError (Iso3 F × Twist F)) (t : ℤ) :
    Except LookupError (Iso3 F × Twist F) :=
  evalSteps composeStaticTwist composeDynTwist (twist · t) plan.steps (1, Twist.zero)

theorem foldAt_answers (h : Reads m g.view pose twist) (t : ℤ) (cursors : Cursors) :
    Answers m (plan.foldAt g t cursors) (plan.evalAt pose t) :=
  foldSteps_answers (fun k edge cs => h.sampleHinted edge t cs k) 0 _ _ _

theorem foldAtCursors_answers (h : Reads m g.view pose twist) (t : ℤ) (cursors : Cursors) :
    Answers m (plan.foldAtCursors g t cursors) (plan.evalAt pose t) := by
  refine foldSteps_answers (fun k edge cs => ?_) 0 _ _ _
  exact (h.sampleFrom edge t (cs k)).bind fun c => .ret _ _

theorem foldAtWithDerivatives_answers (h : Reads m g.view pose twist) (t : ℤ) :
    Answers m (plan.foldAtWithDerivatives g t) (plan.evalTwistAt twist t) := by
  refine foldSteps_answers (fun k edge _ => ⟨(), ?_⟩) 0 _ _ _
  rw [Prog.run_bind, h.sampleWithTwist edge t]
  rfl

theorem foldAtWithDerivativesCursors_answers (h : Reads m g.view pose twist) (t : ℤ)
    (cursors : Cursors) :
    Answers m (plan.foldAtWithDerivativesCursors g t cursors) (plan.evalTwistAt twist t) := by
  refine foldSteps_answers (fun k edge cs => ?_) 0 _ _ _
  exact (h.sampleWithTwistFrom edge t (cs k)).bind fun c => .ret _ _

/-- A single lookup is its checks, then the fold. -/
theorem atTagged_answers (h : Reads m g.view pose twist) (t : ℤ) (domain : ℕ)
    (cursors : Cursors) :
    Answers m (plan.atTagged g t domain cursors)
      (plan.check g domain >>= fun _ => plan.evalAt pose t) := by
  unfold Plan.atTagged
  cases plan.check g domain with
  | error e => exact .ret _ _
  | ok u => exact foldAt_answers h t cursors

theorem atWithDerivativesTagged_answers (h : Reads m g.view pose twist) (t : ℤ) (domain : ℕ) :
    Answers m (plan.atWithDerivativesTagged g t domain)
      (plan.check g domain >>= fun _ => plan.evalTwistAt twist t) := by
  unfold Plan.atWithDerivativesTagged
  cases plan.check g domain with
  | error e => exact .ret _ _
  | ok u => exact foldAtWithDerivatives_answers h t

end Still

end TfTree
