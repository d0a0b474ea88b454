import TfTree.Conc.Prog
import TfTree.Conc.System

/-!
# Pools of programs

Any number of programs (threads) take turns on one memory. A thread may die at any
step, and an environment acts on the memory between the steps.

Thread `i` lives in a rely–guarantee pact: `J` is an invariant of the memory, `S i` is what
the others may do to it, and both hold as long as the memory `Fits` (a bound that no step
re-establishes).

* `Pact.sound`: threads that each satisfy their own triple do so along every run.
* `Pact.stays`: what every `S i` implies holds between the states of a run.
* `Alone.runs`, `Pact.run`: a thread that runs alone, and its triple.
-/

namespace TfTree.Conc

variable {ι Op M α β ε : Type} {Res : Op → Type}

/-- Programs on one memory. -/
structure Pool (ι Op : Type) (Res : Op → Type) (α M : Type) where
  mem : M
  prog : ι → Prog Op Res α

/-- The steps of a pool. -/
inductive PoolEvent (ι ε : Type) where
  /-- The next operation of thread `i`. -/
  | turn (i : ι)
  /-- Thread `i` dies: it takes no turn any more. -/
  | die (i : ι)
  | env (e : ε)

namespace Pool

/-! ## Rely and guarantee of a thread -/

/-- What the others may do to thread `i`. -/
def Rely (Fits J : M → Prop) (S : ι → M → M → Prop) (i : ι) (m m' : M) : Prop :=
  Fits m' ∧ J m' ∧ S i m m'

/-- What thread `i` may do to the others. -/
def Guar (Fits J : M → Prop) (S : ι → M → M → Prop) (i : ι) (m m' : M) : Prop :=
  Fits m' → J m' ∧ ∀ j, j ≠ i → S j m m'

/-- The side conditions of a pact. -/
structure Pact (exec : (o : Op) → M → Res o × M) (act : ε → M → M) (Fits J : M → Prop)
    (S : ι → M → M → Prop) : Prop where
  refl : ∀ i m, S i m m
  trans : ∀ i m m' m'', S i m m' → S i m' m'' → S i m m''
  fits : ∀ o m, Fits (exec o m).2 → Fits m
  env : ∀ e m, Fits (act e m) → Fits m ∧ (J m → J (act e m)) ∧ ∀ i, S i m (act e m)

section Pact

variable {exec : (o : Op) → M → Res o × M} {act : ε → M → M} {Fits J : M → Prop}
  {S : ι → M → M → Prop} {Q : ι → α → M → Prop} {s s' : Pool ι Op Res α M}

/-- The invariant holds, and every thread satisfies its triple from here on. -/
def Sound (exec : (o : Op) → M → Res o × M) (Fits J : M → Prop) (S : ι → M → M → Prop)
    (Q : ι → α → M → Prop) (s : Pool ι Op Res α M) : Prop :=
  Fits s.mem → J s.mem ∧
    ∀ i, (s.prog i).wp exec (Rely Fits J S i) (Guar Fits J S i) (Q i) s.mem

/-- A thread keeps its triple when the others move. -/
theorem Pact.keep (hp : Pact exec act Fits J S) (hQ : ∀ i a m m', Q i a m → S i m m' → Q i a m')
    {i : ι} {p : Prog Op Res α} {m m' : M} (hS : S i m m')
    (h : p.wp exec (Rely Fits J S i) (Guar Fits J S i) (Q i) m) :
    p.wp exec (Rely Fits J S i) (Guar Fits J S i) (Q i) m' := by
  cases p with
  | ret a => exact hQ i a m m' h hS
  | abort => trivial
  | call o k => exact fun m'' hR => h m'' ⟨hR.1, hR.2.1, hp.trans i _ _ _ hS hR.2.2⟩

/-- What a turn of thread `i` establishes. -/
theorem Sound.turn (hp : Pact exec act Fits J S) {i : ι} {o : Op} {k : Res o → Prog Op Res α}
    (hs : Sound exec Fits J S Q s) (hi : s.prog i = .call o k) (hfit : Fits (exec o s.mem).2) :
    (J (exec o s.mem).2 ∧ ∀ j, j ≠ i → S j s.mem (exec o s.mem).2) ∧
      (k (exec o s.mem).1).wp exec (Rely Fits J S i) (Guar Fits J S i) (Q i)
        (exec o s.mem).2 := by
  have hfit' := hp.fits o s.mem hfit
  obtain ⟨hJ, hwp⟩ := hs hfit'
  have h := hwp i
  rw [hi] at h
  obtain ⟨hG, hk⟩ := h s.mem ⟨hfit', hJ, hp.refl i s.mem⟩
  exact ⟨hG hfit, hk⟩

end Pact

/-! ## Runs of a pool -/

section Step

variable [DecidableEq ι] (exec : (o : Op) → M → Res o × M) (act : ε → M → M)

/-- One step; only a thread that is not at its end moves or dies. -/
def step (s : Pool ι Op Res α M) : PoolEvent ι ε → Option (Pool ι Op Res α M)
  | .turn i =>
    match s.prog i with
    | .call o k => some ⟨(exec o s.mem).2, upd s.prog i (k (exec o s.mem).1)⟩
    | _ => none
  | .die i =>
    match s.prog i with
    | .call _ _ => some { s with prog := upd s.prog i .abort }
    | _ => none
  | .env e => some { s with mem := act e s.mem }

variable {exec act} {s s' : Pool ι Op Res α M} {i : ι}

/-- What a turn does. -/
theorem step_turn (h : step exec act s (.turn i) = some s') :
    ∃ o k, s.prog i = .call o k ∧
      s' = ⟨(exec o s.mem).2, upd s.prog i (k (exec o s.mem).1)⟩ := by
  simp only [step] at h
  cases hp : s.prog i with
  | call o k =>
    rw [hp] at h
    cases h
    exact ⟨o, k, rfl, rfl⟩
  | ret a =>
    rw [hp] at h
    cases h
  | abort =>
    rw [hp] at h
    cases h

/-- What a death does. -/
theorem step_die (h : step exec act s (.die i) = some s') :
    s' = { s with prog := upd s.prog i .abort } := by
  simp only [step] at h
  cases hp : s.prog i with
  | call o k =>
    rw [hp] at h
    cases h
    rfl
  | ret a =>
    rw [hp] at h
    cases h
  | abort =>
    rw [hp] at h
    cases h

end Step

section Run

variable [DecidableEq ι] {exec : (o : Op) → M → Res o × M} {act : ε → M → M} {Fits J : M → Prop}
  {S : ι → M → M → Prop} {Q : ι → α → M → Prop} {s s' : Pool ι Op Res α M}

/-- **Step lemma.** Every step keeps every triple. -/
theorem Pact.sound_step (hp : Pact exec act Fits J S)
    (hQ : ∀ i a m m', Q i a m → S i m m' → Q i a m') :
    Preserved (step exec act) anyStep (Sound exec Fits J S Q) := by
  intro s e s' hs _ hstep hfit
  cases e with
  | turn i =>
    obtain ⟨o, k, hi, rfl⟩ := step_turn hstep
    obtain ⟨⟨hJ, hS⟩, hk⟩ := hs.turn hp hi hfit
    refine ⟨hJ, fun j => ?_⟩
    show (upd s.prog i _ j).wp _ _ _ _ _
    by_cases hj : j = i
    · subst hj
      rw [upd_self]
      exact hk
    · rw [upd_of_ne _ _ hj]
      exact hp.keep hQ (hS j hj) ((hs (hp.fits o s.mem hfit)).2 j)
  | die i =>
    obtain rfl := step_die hstep
    obtain ⟨hJ, hwp⟩ := hs hfit
    refine ⟨hJ, fun j => ?_⟩
    show (upd s.prog i _ j).wp _ _ _ _ _
    by_cases hj : j = i
    · subst hj
      rw [upd_self]
      trivial
    · rw [upd_of_ne _ _ hj]
      exact hwp j
  | env e =>
    cases hstep
    obtain ⟨hfit', hJ, hS⟩ := hp.env e s.mem hfit
    obtain ⟨hJ', hwp⟩ := hs hfit'
    exact ⟨hJ hJ', fun j => hp.keep hQ (hS j) (hwp j)⟩

/-- **Run lemma.** Threads that each satisfy their triple do so along every run. -/
theorem Pact.sound (hp : Pact exec act Fits J S)
    (hQ : ∀ i a m m', Q i a m → S i m m' → Q i a m') (hr : Reachable (step exec act) s s')
    (hs : Sound exec Fits J S Q s) : Sound exec Fits J S Q s' :=
  hr.invariant (hp.sound_step hQ) hs

/-- What every `S i` implies holds between two states of a run. -/
theorem Pact.stays [Nontrivial ι] (hp : Pact exec act Fits J S)
    (hQ : ∀ i a m m', Q i a m → S i m m' → Q i a m') {T : M → M → Prop}
    (hST : ∀ i m m', S i m m' → T m m') (htrans : ∀ m m' m'', T m m' → T m' m'' → T m m'')
    (hr : Reachable (step exec act) s s') (hs : Sound exec Fits J S Q s) (hfit : Fits s'.mem) :
    Fits s.mem ∧ T s.mem s'.mem := by
  induction hr with
  | refl =>
    obtain ⟨i⟩ := (inferInstance : Nonempty ι)
    exact ⟨hfit, hST i _ _ (hp.refl i _)⟩
  | @step s₁ s₂ e hr _ hstep ih =>
    have hs₁ := hp.sound hQ hr hs
    cases e with
    | turn i =>
      obtain ⟨o, k, hi, rfl⟩ := step_turn hstep
      obtain ⟨j, hj⟩ := exists_ne i
      obtain ⟨hfit', hT⟩ := ih (hp.fits o s₁.mem hfit)
      exact ⟨hfit', htrans _ _ _ hT (hST j _ _ ((hs₁.turn hp hi hfit).1.2 j hj))⟩
    | die i =>
      obtain rfl := step_die hstep
      exact ih hfit
    | env e =>
      cases hstep
      obtain ⟨i⟩ := (inferInstance : Nonempty ι)
      obtain ⟨hfit', -, hS⟩ := hp.env e s₁.mem hfit
      obtain ⟨hfit'', hT⟩ := ih hfit'
      exact ⟨hfit'', htrans _ _ _ hT (hST i _ _ (hS i))⟩

end Run

/-! ## A thread that runs alone -/

section Alone

variable {exec : (o : Op) → M → Res o × M}

/-- A program and its memory after some of its operations. -/
inductive Alone (exec : (o : Op) → M → Res o × M) (p' : Prog Op Res α) (m' : M) :
    Prog Op Res α → M → Prop
  | refl : Alone exec p' m' p' m'
  | turn {o : Op} {k : Res o → Prog Op Res α} {m : M} :
      Alone exec p' m' (k (exec o m).1) (exec o m).2 → Alone exec p' m' (.call o k) m

theorem Alone.trans {p p' p'' : Prog Op Res α} {m m' m'' : M} (h : Alone exec p' m' p m)
    (h' : Alone exec p'' m'' p' m') : Alone exec p'' m'' p m := by
  induction h with
  | refl => exact h'
  | turn _ ih => exact .turn ih

/-- The first part of a program, run to its end. -/
theorem Alone.of_run {p : Prog Op Res β} {g : β → Prog Op Res α} {m m' : M} {b : β}
    (h : p.run exec m = some (b, m')) : Alone exec (g b) m' (p >>= g) m := by
  induction p generalizing m with
  | ret a =>
    cases h
    exact .refl
  | abort => cases h
  | call o k ih => exact .turn (ih _ h)

theorem Alone.bind {p p' : Prog Op Res β} {g : β → Prog Op Res α} {m m' : M}
    (h : Alone exec p' m' p m) : Alone exec (p' >>= g) m' (p >>= g) m := by
  induction h with
  | refl => exact .refl
  | turn _ ih => exact .turn ih

theorem Alone.run_eq {p p' : Prog Op Res α} {m m' : M} (h : Alone exec p' m' p m) :
    p.run exec m = p'.run exec m' := by
  induction h with
  | refl => rfl
  | turn _ ih => exact ih

/-- A thread that runs alone, in a pool whose steps are conditioned. -/
theorem Alone.runs [DecidableEq ι] {act : ε → M → M} {ok : Pool ι Op Res α M → PoolEvent ι ε → Prop}
    {K : M → Prop} {prog : ι → Prog Op Res α} {i : ι} (hK : ∀ o m, K m → K (exec o m).2)
    (hok : ∀ m p, K m → ok ⟨m, upd prog i p⟩ (.turn i)) {p p' : Prog Op Res α} {m m' : M}
    (hm : K m) (h : Alone exec p' m' p m) :
    Runs (step exec act) ok ⟨m, upd prog i p⟩ ⟨m', upd prog i p'⟩ := by
  induction h with
  | refl => exact .refl
  | @turn o k m _ ih =>
    have hstep : step exec act ⟨m, upd prog i (.call o k)⟩ (.turn i) =
        some ⟨(exec o m).2, upd prog i (k (exec o m).1)⟩ := by
      simp only [step, upd_self, upd_upd]
    have hfirst : Runs (step exec act) ok ⟨m, upd prog i (.call o k)⟩
        ⟨(exec o m).2, upd prog i (k (exec o m).1)⟩ := Runs.refl.step (hok m _ hm) hstep
    exact hfirst.trans (ih (hK o m hm))

end Alone

/-! ## A triple, on a thread that runs alone -/

section Lone

variable {exec : (o : Op) → M → Res o × M} {act : ε → M → M} {Fits J : M → Prop}
  {S : ι → M → M → Prop}

/-- Nothing that has gone wrong is repaired in a run. -/
theorem Pact.fits_of_run (hp : Pact exec act Fits J S) {p : Prog Op Res α} {m m' : M} {a : α}
    (hr : p.run exec m = some (a, m')) (hfit : Fits m') : Fits m := by
  induction p generalizing m with
  | ret b =>
    cases hr
    exact hfit
  | abort => cases hr
  | call o k ih => exact hp.fits o m (ih _ hr)

/-- A run of a thread that meets its triple. -/
theorem Pact.run (hp : Pact exec act Fits J S) {i : ι} {p : Prog Op Res α} {Q : α → M → Prop}
    {m m' : M} {a : α} (h : p.wp exec (Rely Fits J S i) (Guar Fits J S i) Q m) (hJ : J m)
    (hr : p.run exec m = some (a, m')) (hfit : Fits m') :
    J m' ∧ (∀ j, j ≠ i → S j m m') ∧ Q a m' := by
  induction p generalizing m with
  | ret b =>
    cases hr
    exact ⟨hJ, fun j _ => hp.refl j _, h⟩
  | abort => cases hr
  | call o k ih =>
    have hfit₁ : Fits (exec o m).2 := hp.fits_of_run (p := k (exec o m).1) hr hfit
    obtain ⟨hg, hk⟩ := h m ⟨hp.fits o m hfit₁, hJ, hp.refl i m⟩
    obtain ⟨hJ₁, hS₁⟩ := hg hfit₁
    obtain ⟨hJ', hS', hQ⟩ := ih _ hk hJ₁ hr
    exact ⟨hJ', fun j hj => hp.trans j _ _ _ (hS₁ j hj) (hS' j hj), hQ⟩

end Lone

end Pool

end TfTree.Conc
