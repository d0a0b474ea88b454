import Mathlib
import TfTree.Plan.Eval
import TfTree.Ring.Access

/-!
# The accesses of a lookup

A lookup only loads, whatever its loads return (`tf_tree_core/src/plan.rs`).

Results:
* `foldAt_through`: the fold of a plan stores nothing.
* `foldAt_still`: its result on a memory that nobody changes is an answer.
-/

namespace TfTree

open Conc

variable {F : Type} [Kernels F]

section Ring

variable {r : SampleRing F} {B : Type} {exact' : Iso3 F → B} {between : Iso3 F → Iso3 F → F → B}

theorem constantTwist_through (lo newest : ℕ) (t tNew : ℤ) :
    (r.constantTwist lo newest t tNew).run.Through RingOp.IsLoad (Prog.onError r.Retries) := by
  unfold SampleRing.constantTwist
  split_ifs
  · exact Prog.Through.bindE (readSlot_through _) fun p => revalidated_through _ _
  · refine Prog.Through.bindE (Prog.Through.liftE (Prog.Through.op trivial)) fun tPrev => ?_
    refine Prog.Through.bindE (readSlot_through _) fun a => ?_
    exact Prog.Through.bindE (readSlot_through _) fun b => revalidated_through _ _

theorem extrapolated_through (lo newest : ℕ) (t tOld tNew : ℤ) (policy : ExtrapPolicy) :
    (r.extrapolated lo newest t tOld tNew policy).run.Through RingOp.IsLoad fun _ => True := by
  cases policy with
  | error => trivial
  | hold => exact (held_through newest).mono fun _ _ => trivial
  | constantTwist =>
    refine Prog.Through.mono (P := Prog.onError r.Retries) ?_ fun _ _ => trivial
    exact Prog.Through.bindE (constantTwist_through lo newest t tNew) fun p => trivial

/-- The body of the readers only loads. -/
theorem readWith_through {seek : ℕ → ℕ → RingProg F ℕ}
    (hseek : ∀ lo hi, (seek lo hi).Through RingOp.IsLoad fun _ => True) (t : ℤ)
    (policy : ExtrapPolicy) (cursor : ℕ) :
    (r.readWith exact' between seek t policy cursor).Through RingOp.IsLoad fun _ => True := by
  unfold SampleRing.readWith
  refine (Prog.Through.op trivial).bind fun h _ => ?_
  split_ifs
  · trivial
  · refine (Prog.Through.op trivial).bind fun tOld _ => ?_
    refine (Prog.Through.op trivial).bind fun tNew _ => ?_
    split_ifs
    · trivial
    · exact (extrapolated_through _ _ t tOld tNew policy).bind fun out _ => trivial
    · exact (held_through _).bind fun out _ => trivial
    · refine (hseek _ _).bind fun i _ => ?_
      exact (readBracket_through i t).bind fun out _ => trivial

theorem sample_through (interp : Iso3 F → Iso3 F → F → Iso3 F) (t : ℤ) (policy : ExtrapPolicy) :
    (r.sample interp t policy).Through RingOp.IsLoad fun _ => True := by
  have hread : (r.readWith id interp (fun lo hi => r.bracket lo hi t) t policy 0).Through
      RingOp.IsLoad fun _ => True :=
    readWith_through (fun lo hi => (bracket_through lo hi t).mono fun _ _ => trivial) t policy 0
  exact hread.bind fun out _ => trivial

theorem sampleFrom_through (interp : Iso3 F → Iso3 F → F → Iso3 F) (t : ℤ) (policy : ExtrapPolicy)
    (cursor : ℕ) : (r.sampleFrom interp t policy cursor).Through RingOp.IsLoad fun _ => True := by
  have hread : (r.readWith id interp (fun lo hi => r.bracketFrom lo hi t cursor) t policy
      cursor).Through RingOp.IsLoad fun _ => True :=
    readWith_through (fun lo hi => (bracketFrom_through lo hi t cursor).mono fun _ _ => trivial)
      t policy cursor
  exact hread

end Ring

section Guard

variable (view : ArenaView)

theorem ArenaView.sample_through (edge : EdgeId) (t : ℤ) (policy : ExtrapPolicy) :
    (view.sample edge t policy : RingProg F (Except LookupError (Iso3 F))).Through
      RingOp.IsLoad fun _ => True := by
  unfold ArenaView.sample
  cases (view.sampler edge : Option (ℕ × SampleRing F)) with
  | none => trivial
  | some s => exact TfTree.sample_through _ t policy

theorem ArenaView.sampleFrom_through (edge : EdgeId) (t : ℤ) (policy : ExtrapPolicy)
    (cursor : ℕ) :
    (view.sampleFrom edge t policy cursor : RingProg F (Except LookupError (Iso3 F) × ℕ)).Through
      RingOp.IsLoad fun _ => True := by
  unfold ArenaView.sampleFrom
  cases (view.sampler edge : Option (ℕ × SampleRing F)) with
  | none => trivial
  | some s => exact TfTree.sampleFrom_through _ t policy cursor

theorem ArenaView.sampleHinted_through (cursors : Cursors) (k : ℕ) (edge : EdgeId) (t : ℤ)
    (policy : ExtrapPolicy) :
    (view.sampleHinted cursors k edge t policy :
      RingProg F (Except LookupError (Iso3 F) × Cursors)).Through RingOp.IsLoad fun _ => True := by
  unfold ArenaView.sampleHinted
  split_ifs
  · refine (view.sampleFrom_through edge t policy _).bind fun out _ => ?_
    obtain ⟨out, cursor⟩ := out
    cases out <;> trivial
  · exact (view.sample_through edge t policy).bind fun out _ => trivial

end Guard

omit [Kernels F] in
/-- The loop of a fold only loads, if its sampler does. -/
theorem foldSteps_through {A V C : Type} {onStatic : A → Iso3 F → A} {onDyn : A → Bool → V → A}
    {sample : ℕ → EdgeId → C → RingProg F (Except LookupError V × C)}
    (h : ∀ k edge c, (sample k edge c).Through RingOp.IsLoad fun _ => True) (k : ℕ)
    (steps : List (Step (Iso3 F))) (acc : A) (c : C) :
    (foldSteps onStatic onDyn sample k steps acc c).Through RingOp.IsLoad fun _ => True := by
  induction steps generalizing k acc c with
  | nil => trivial
  | cons s steps ih =>
    cases s with
    | static p => exact ih (k + 1) (onStatic acc p) c
    | dyn edge inverted =>
      refine (h k edge c).bind fun out _ => ?_
      obtain ⟨out, c⟩ := out
      cases out with
      | error e => trivial
      | ok v => exact ih (k + 1) (onDyn acc inverted v) c

variable {plan : Plan (Iso3 F)} {g : Guard}

theorem foldAt_through (t : ℤ) (cs : Cursors) :
    (plan.foldAt g t cs).Through RingOp.IsLoad fun _ => True :=
  foldSteps_through (fun k edge c => g.view.sampleHinted_through c k edge t .error) 0 _ _ _

/-- A fold on rings nobody writes answers the pose of the plan. -/
theorem foldAt_still {m : RingArena F} {pose : EdgeId → ℤ → Except LookupError (Iso3 F)}
    {twist : EdgeId → ℤ → Except LookupError (Iso3 F × Twist F)} (h : Reads m g.view pose twist)
    (t : ℤ) (cs : Cursors) :
    RingProg.wpRead Eq (plan.foldAt g t cs) (fun out m' => m' = m ∧ out.1 = plan.evalAt pose t)
      m := by
  refine Prog.wp_of_run (fun o m ho => RingOp.exec_of_isLoad ho m) (foldAt_through t cs) ?_
  intro out hout
  have hans : Answers m (plan.foldAt g t cs) (plan.evalAt pose t) := foldAt_answers h t cs
  obtain ⟨c, hc⟩ := hans
  rw [hc] at hout
  cases hout
  exact ⟨rfl, rfl⟩

end TfTree
