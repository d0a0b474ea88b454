import Mathlib.Logic.Relation
import Mathlib.Data.List.Basic
import TfTree.Data.Numerals

/-!
# Transition systems and invariants of their runs

A system is a partial step function `step : σ → ε → Option σ`: the event `e`
is enabled in `s` when `step s e` is a state. Runs may be restricted by a
condition on each step, read in the state the step starts from.

* `Runs.invariant`: what every (conditioned) step preserves holds along every
  (conditioned) run.
* `Path.runs`: what holds in every state of a run conditions its steps.
* `runs_of_exec`: a concrete list of events that executes is a run.
-/

namespace TfTree.Conc

variable {σ ε : Type}

/-- `s` reaches `s'` by enabled steps that each satisfy `ok` in the state they
    start from. -/
inductive Runs (step : σ → ε → Option σ) (ok : σ → ε → Prop) (s : σ) : σ → Prop
  | refl : Runs step ok s s
  | step {s' s'' : σ} {e : ε} : Runs step ok s s' → ok s' e → step s' e = some s'' →
      Runs step ok s s''

/-- No condition on the steps of a run. -/
def anyStep : σ → ε → Prop := fun _ _ => True

/-- The states that runs from `init` reach. -/
def Reachable (step : σ → ε → Option σ) (init : σ) : σ → Prop := Runs step anyStep init

/-- `Inv` is preserved by every enabled step that satisfies `ok`. -/
def Preserved (step : σ → ε → Option σ) (ok : σ → ε → Prop) (Inv : σ → Prop) : Prop :=
  ∀ s e s', Inv s → ok s e → step s e = some s' → Inv s'

theorem Runs.invariant {step : σ → ε → Option σ} {ok : σ → ε → Prop} {Inv : σ → Prop} {s s' : σ}
    (hr : Runs step ok s s') (hp : Preserved step ok Inv) (h : Inv s) : Inv s' := by
  induction hr with
  | refl => exact h
  | step _ hok hst ih => exact hp _ _ _ ih hok hst

theorem Runs.trans {step : σ → ε → Option σ} {ok : σ → ε → Prop} {s s' s'' : σ}
    (h : Runs step ok s s') (h' : Runs step ok s' s'') : Runs step ok s s'' := by
  induction h' with
  | refl => exact h
  | step _ hok hst ih => exact ih.step hok hst

theorem Runs.mono {step : σ → ε → Option σ} {ok ok' : σ → ε → Prop} {s s' : σ}
    (h : Runs step ok s s') (hm : ∀ s e, ok s e → ok' s e) : Runs step ok' s s' := by
  induction h with
  | refl => exact .refl
  | step _ hok hst ih => exact ih.step (hm _ _ hok) hst

/-- A run with the states it visits, the first and the last one included. -/
inductive Path (step : σ → ε → Option σ) (ok : σ → ε → Prop) (s : σ) : List σ → σ → Prop
  | refl : Path step ok s [s] s
  | step {ss : List σ} {s' s'' : σ} {e : ε} : Path step ok s ss s' → ok s' e →
      step s' e = some s'' → Path step ok s (ss ++ [s'']) s''

theorem Path.last_mem {step : σ → ε → Option σ} {ok : σ → ε → Prop} {s s' : σ} {ss : List σ}
    (h : Path step ok s ss s') : s' ∈ ss := by
  cases h with
  | refl => exact List.mem_singleton_self s
  | step => exact List.mem_append_right _ (List.mem_singleton_self s')

/-- What holds in every state of a path conditions its steps. -/
theorem Path.runs {step : σ → ε → Option σ} {ok : σ → ε → Prop} {P : σ → Prop} {s s' : σ}
    {ss : List σ} (h : Path step ok s ss s') (hP : ∀ x ∈ ss, P x) :
    Runs step (fun x e => ok x e ∧ P x) s s' := by
  induction h with
  | refl => exact .refl
  | step hpath hok hst ih =>
    have hP' := fun x hx => hP x (List.mem_append_left _ hx)
    exact (ih hP').step ⟨hok, hP' _ hpath.last_mem⟩ hst

/-- Execute a list of events and collect the states. -/
def visit (step : σ → ε → Option σ) : σ → List ε → List σ
  | s, [] => [s]
  | s, e :: es =>
    match step s e with
    | some s' => s :: visit step s' es
    | none => [s]

theorem Path.head {step : σ → ε → Option σ} {ok : σ → ε → Prop} {s s' s'' : σ} {e : ε}
    {ss : List σ} (hok : ok s e) (hst : step s e = some s') (h : Path step ok s' ss s'') :
    Path step ok s (s :: ss) s'' := by
  induction h with
  | refl => exact Path.refl.step hok hst
  | step _ hok' hst' ih => exact ih.step hok' hst'

/-- Execute a list of events, checking the condition of each. -/
def exec (step : σ → ε → Option σ) (ok : σ → ε → Bool) : σ → List ε → Option σ
  | s, [] => some s
  | s, e :: es => if ok s e then (step s e).bind fun s' => exec step ok s' es else none

theorem runs_of_exec {step : σ → ε → Option σ} {ok : σ → ε → Bool} :
    ∀ {es : List ε} {s s' : σ}, exec step ok s es = some s' →
      Runs step (fun s e => ok s e = true) s s' := by
  intro es
  induction es with
  | nil => intro s s' h; cases h; exact .refl
  | cons e es ih =>
    intro s s' h
    rw [exec] at h
    split_ifs at h with hok
    obtain ⟨s1, h1, h2⟩ := Option.bind_eq_some_iff.mp h
    have h0 : Runs step (fun s e => ok s e = true) s s1 := Runs.refl.step hok h1
    exact h0.trans (ih h2)

/-- Execute a list of events without conditions. -/
def execAll (step : σ → ε → Option σ) : σ → List ε → Option σ := exec step fun _ _ => true

theorem reachable_of_execAll {step : σ → ε → Option σ} {es : List ε} {s s' : σ}
    (h : execAll step s es = some s') : Reachable step s s' :=
  (runs_of_exec h).mono fun _ _ _ => trivial

/-- The states of a list of events that executes are a path. -/
theorem path_of_execAll {step : σ → ε → Option σ} {es : List ε} {s s' : σ}
    (h : execAll step s es = some s') : Path step anyStep s (visit step s es) s' := by
  induction es generalizing s with
  | nil =>
    cases h
    exact .refl
  | cons e es ih =>
    rw [execAll, exec, if_pos rfl] at h
    obtain ⟨s1, h1, h2⟩ := Option.bind_eq_some_iff.mp h
    rw [visit, h1]
    exact Path.head trivial h1 (ih h2)

/-! ## Pointwise update of a process table -/

/-- The table `f` with `x` for index `i`. -/
def upd {ι β : Type} [DecidableEq ι] (f : ι → β) (i : ι) (x : β) : ι → β :=
  fun j => if j = i then x else f j

@[simp] theorem upd_self {ι β : Type} [DecidableEq ι] (f : ι → β) (i : ι) (x : β) :
    upd f i x i = x := by simp [upd]

theorem upd_of_ne {ι β : Type} [DecidableEq ι] (f : ι → β) {i j : ι} (x : β) (h : j ≠ i) :
    upd f i x j = f j := by simp [upd, h]

@[simp] theorem upd_upd {ι β : Type} [DecidableEq ι] (f : ι → β) (i : ι) (x y : β) :
    upd (upd f i x) i y = upd f i y := by
  funext j
  by_cases h : j = i <;> simp [upd, h]

theorem upd_apply {ι β : Type} [DecidableEq ι] (f : ι → β) (i j : ι) (x : β) :
    upd f i x j = if j = i then x else f j := rfl

end TfTree.Conc
