import Mathlib
import TfTree.Conc.Pool

/-!
# Replaying a run with another program

Two programs replay each other in an environment when they make the same accesses and
return the same value, whatever the accesses return there. A thread of a pool may then be
exchanged for the other program without changing the run.

A thread often decides late: its first part is common to both programs, and what the first
part has learned tells whether the rests replay each other, or whether the run no longer
matters. The first part may be watched under a condition on each access.

* `Replays.bind`, `Replays.of_through`: sequencing, and a program against itself.
* `Walk.exchange`: a thread of a pool, exchanged for a program that replays it.
* `Walk.replay`: the run lemma for a thread that decides late.
-/

namespace TfTree.Conc

/-! ## Runs by their events -/

section Walk

variable {σ ε : Type} {step : σ → ε → Option σ} {ok ok' : σ → ε → Prop}

/-- The events lead from a state to another, each satisfying `ok` where it happens. -/
def Walk (step : σ → ε → Option σ) (ok : σ → ε → Prop) : σ → List ε → σ → Prop
  | s, [], t => s = t
  | s, e :: es, t => ok s e ∧ ∃ s₁, step s e = some s₁ ∧ Walk step ok s₁ es t

theorem Walk.mono {s t : σ} {es : List ε} (h : Walk step ok s es t)
    (hm : ∀ s e, ok s e → ok' s e) : Walk step ok' s es t := by
  induction es generalizing s with
  | nil => exact h
  | cons e es ih =>
    obtain ⟨hok, s₁, hst, h⟩ := h
    exact ⟨hm _ _ hok, s₁, hst, ih h⟩

theorem walk_of_exec {ok : σ → ε → Bool} {s t : σ} {es : List ε}
    (h : exec step ok s es = some t) : Walk step (fun s e => ok s e = true) s es t := by
  induction es generalizing s with
  | nil =>
    cases h
    rfl
  | cons e es ih =>
    rw [exec] at h
    split_ifs at h with hok
    obtain ⟨s₁, hst, h⟩ := Option.bind_eq_some_iff.mp h
    exact ⟨hok, s₁, hst, ih h⟩

/-- Events and conditions aside, what a list of events executes to. -/
theorem Walk.execAll_eq {s t : σ} {es : List ε} (h : Walk step ok s es t) :
    execAll step s es = some t := by
  induction es generalizing s with
  | nil =>
    cases h
    rfl
  | cons e es ih =>
    obtain ⟨-, s₁, hst, h⟩ := h
    rw [execAll, exec, if_pos rfl, hst]
    exact ih h

end Walk

/-! ## Programs that replay each other -/

namespace Prog

variable {Op M α β : Type} {Res : Op → Type} {exec : (o : Op) → M → Res o × M}
  {R : M → M → Prop} {C : Op → M → Prop}

/-- In every environment `R` both programs make the same accesses and return the same
    value, which satisfies `Q`. -/
def Replays (exec : (o : Op) → M → Res o × M) (R : M → M → Prop) :
    Prog Op Res α → Prog Op Res α → (α → M → Prop) → M → Prop
  | ret a, p', Q, m => p' = ret a ∧ Q a m
  | call o k, p', Q, m => ∃ k', p' = call o k' ∧ ∀ m', R m m' →
      Replays exec R (k (exec o m').1) (k' (exec o m').1) Q (exec o m').2
  | abort, p', _, _ => p' = abort

theorem Replays.mono {p p' : Prog Op Res α} {Q Q' : α → M → Prop} {m : M}
    (h : p.Replays exec R p' Q m) (hQ : ∀ a m, Q a m → Q' a m) : p.Replays exec R p' Q' m := by
  induction p generalizing p' m with
  | ret a => exact ⟨h.1, hQ a m h.2⟩
  | abort => exact h
  | call o k ih =>
    obtain ⟨k', hk', h⟩ := h
    exact ⟨k', hk', fun m' hm => ih _ (h m' hm)⟩

theorem Replays.bind {p p' : Prog Op Res α} {f f' : α → Prog Op Res β} {Q : β → M → Prop} {m : M}
    (h : p.Replays exec R p' (fun a m => (f a).Replays exec R (f' a) Q m) m) :
    (p >>= f).Replays exec R (p' >>= f') Q m := by
  induction p generalizing p' m with
  | ret a =>
    obtain ⟨rfl, h⟩ := h
    exact h
  | abort =>
    obtain rfl : p' = abort := h
    rfl
  | call o k ih =>
    obtain ⟨k', rfl, h⟩ := h
    exact ⟨_, rfl, fun m' hm => ih _ (h m' hm)⟩

/-- One access of both. -/
theorem Replays.op {o : Op} {Q : Res o → M → Prop} {m : M}
    (h : ∀ m', R m m' → Q (exec o m').1 (exec o m').2) :
    (Prog.op o : Prog Op Res (Res o)).Replays exec R (Prog.op o) Q m :=
  ⟨_, rfl, fun m' hm => ⟨rfl, h m' hm⟩⟩

theorem through_trivial (p : Prog Op Res α) : p.Through (fun _ => True) fun _ => True := by
  induction p with
  | ret a => trivial
  | abort => trivial
  | call o k ih => exact ⟨trivial, ih⟩

/-- A program that only reads replays itself, and keeps what the environment keeps. -/
theorem Replays.of_through {S : Op → Prop} (hS : ∀ o m, S o → (exec o m).2 = m) {I : M → Prop}
    (hI : ∀ m m', I m → R m m' → I m') {p : Prog Op Res α} {P : α → Prop} (hp : p.Through S P)
    {m : M} (hm : I m) : p.Replays exec R p (fun a m => P a ∧ I m) m := by
  induction p generalizing m with
  | ret a => exact ⟨rfl, hp, hm⟩
  | abort => rfl
  | call o k ih =>
    refine ⟨k, rfl, fun m' hR => ih _ (hp.2 _) ?_⟩
    rw [hS o m' hp.1]
    exact hI m m' hm hR

/-- The environment may move first. -/
theorem Replays.stable (hR : ∀ m m' m'', R m m' → R m' m'' → R m m'') {p p' : Prog Op Res α}
    {Q : α → M → Prop} (hQ : ∀ a m m', Q a m → R m m' → Q a m') {m m' : M}
    (h : p.Replays exec R p' Q m) (hm : R m m') : p.Replays exec R p' Q m' := by
  cases p with
  | ret a => exact ⟨h.1, hQ a m m' h.2 hm⟩
  | abort => exact h
  | call o k =>
    obtain ⟨k', hk', h⟩ := h
    exact ⟨k', hk', fun m'' hm' => h m'' (hR _ _ _ hm hm')⟩

/-! ## Preconditions under a condition on each access -/

/-- Every return satisfies `Q`, when the environment may change the memory by `R` before
    each access and every access satisfies `C` where it happens. -/
def wpIf (exec : (o : Op) → M → Res o × M) (R : M → M → Prop) (C : Op → M → Prop) :
    Prog Op Res α → (α → M → Prop) → M → Prop
  | ret a, Q, m => Q a m
  | call o k, Q, m => ∀ m', R m m' → C o m' →
      (k (exec o m').1).wpIf exec R C Q (exec o m').2
  | abort, _, _ => True

theorem wpIf_mono {p : Prog Op Res α} {Q Q' : α → M → Prop} (hQ : ∀ a m, Q a m → Q' a m) {m : M}
    (h : p.wpIf exec R C Q m) : p.wpIf exec R C Q' m := by
  induction p generalizing m with
  | ret a => exact hQ a m h
  | abort => trivial
  | call o k ih => exact fun m' hm hC => ih _ (h m' hm hC)

theorem wpIf_stable (hR : ∀ m m' m'', R m m' → R m' m'' → R m m'') {p : Prog Op Res α}
    {Q : α → M → Prop} (hQ : ∀ a m m', Q a m → R m m' → Q a m') {m m' : M}
    (h : p.wpIf exec R C Q m) (hm : R m m') : p.wpIf exec R C Q m' := by
  cases p with
  | ret a => exact hQ a m m' h hm
  | abort => trivial
  | call o k => exact fun m'' hm' => h m'' (hR _ _ _ hm hm')

end Prog

/-! ## Exchanging a thread of a pool -/

namespace Pool

variable {ι Op M α β ε : Type} {Res : Op → Type} [DecidableEq ι]
  {exec : (o : Op) → M → Res o × M} {act : ε → M → M} {Fits J : M → Prop}
  {S : ι → M → M → Prop} {Q : ι → α → M → Prop} {i : ι} {s s' s₁ t : Pool ι Op Res α M}
  {C : Op → M → Prop} {late : α → Prop} {f f' : β → Prog Op Res α}

/-- The pools differ in the program of thread `i` at most. -/
structure SameBut (i : ι) (s s' : Pool ι Op Res α M) : Prop where
  mem : s'.mem = s.mem
  prog : ∀ j, j ≠ i → s'.prog j = s.prog j

theorem SameBut.eq (h : SameBut i s s') (hi : s'.prog i = s.prog i) : s' = s := by
  cases s with
  | mk mem prog =>
  cases s' with
  | mk mem' prog' =>
    obtain rfl : mem' = mem := h.mem
    have hprog : prog' = prog := by
      funext j
      by_cases hj : j = i
      · rw [hj]
        exact hi
      · exact h.prog j hj
    rw [hprog]

/-- The steps of thread `i` while its first part runs satisfy `C`. -/
def Watched (i : ι) (f : β → Prog Op Res α) (C : Op → M → Prop) (s : Pool ι Op Res α M)
    (e : PoolEvent ι ε) : Prop :=
  e = .turn i → ∀ o k, s.prog i = Prog.call o k >>= f → C o s.mem

/-- A thread that only returns what is late does so. -/
theorem late_of_walk {ok : Pool ι Op Res α M → PoolEvent ι ε → Prop} {es : List (PoolEvent ι ε)}
    (hw : Walk (step exec act) ok s es t) (hs : (s.prog i).Through (fun _ => True) late) {a : α}
    (hret : t.prog i = .ret a) : late a := by
  induction es generalizing s with
  | nil =>
    cases hw
    rw [hret] at hs
    exact hs
  | cons e es ih =>
    obtain ⟨-, s₁, hst, hw⟩ := hw
    refine ih hw ?_
    cases e with
    | turn j =>
      obtain ⟨o, k, hj, rfl⟩ := step_turn hst
      show (upd s.prog j _ i).Through _ _
      by_cases hij : i = j
      · subst hij
        rw [upd_self]
        rw [hj] at hs
        exact hs.2 _
      · rwa [upd_of_ne _ _ hij]
    | die j =>
      obtain rfl := step_die hst
      show (upd s.prog j _ i).Through _ _
      by_cases hij : i = j
      · subst hij
        rw [upd_self]
        trivial
      · rwa [upd_of_ne _ _ hij]
    | env e =>
      cases hst
      exact hs

/-- A step of another thread, in the pool where thread `i` is exchanged. -/
theorem SameBut.step_other (h : SameBut i s s') {e : PoolEvent ι ε}
    (hst : step exec act s e = some s₁)
    (he : e ≠ .turn i) (hd : e ≠ .die i) : ∃ s₁', step exec act s' e = some s₁' ∧
      SameBut i s₁ s₁' ∧ s₁.prog i = s.prog i ∧ s₁'.prog i = s'.prog i := by
  cases e with
  | turn j =>
    have hj : j ≠ i := fun hj => he (by rw [hj])
    obtain ⟨o, k, hprog, rfl⟩ := step_turn hst
    have hst' : step exec act s' (.turn j) =
        some ⟨(exec o s.mem).2, upd s'.prog j (k (exec o s.mem).1)⟩ := by
      simp only [step, h.prog j hj, hprog, h.mem]
    refine ⟨_, hst', ⟨rfl, fun l hl => ?_⟩, upd_of_ne _ _ hj.symm, upd_of_ne _ _ hj.symm⟩
    show upd s'.prog j _ l = upd s.prog j _ l
    rw [upd_apply, upd_apply, h.prog l hl]
  | die j =>
    have hj : j ≠ i := fun hj => hd (by rw [hj])
    have hcall : ∃ o k, s.prog j = .call o k := by
      simp only [step] at hst
      cases hprog : s.prog j with
      | call o k => exact ⟨o, k, rfl⟩
      | ret a => rw [hprog] at hst; cases hst
      | abort => rw [hprog] at hst; cases hst
    obtain ⟨o, k, hprog⟩ := hcall
    obtain rfl := step_die hst
    have hst' : step exec act s' (.die j) = some { s' with prog := upd s'.prog j .abort } := by
      simp only [step, h.prog j hj, hprog]
    refine ⟨_, hst', ⟨h.mem, fun l hl => ?_⟩, upd_of_ne _ _ hj.symm, upd_of_ne _ _ hj.symm⟩
    show upd s'.prog j _ l = upd s.prog j _ l
    rw [upd_apply, upd_apply, h.prog l hl]
  | env e =>
    cases hst
    refine ⟨_, rfl, ⟨?_, h.prog⟩, rfl, rfl⟩
    show act e s'.mem = act e s.mem
    rw [h.mem]

/-- What a step of another thread may do to thread `i`. -/
theorem Sound.others (hs : Sound exec Fits J S Q s) (hp : Pact exec act Fits J S)
    (hfits : ∀ m, Fits m) {e : PoolEvent ι ε} (hst : step exec act s e = some s₁)
    (he : e ≠ .turn i) : S i s.mem s₁.mem := by
  cases e with
  | turn j =>
    obtain ⟨o, k, hj, rfl⟩ := step_turn hst
    exact (hs.turn hp hj (hfits _)).1.2 i fun hij => he (by rw [hij])
  | die j =>
    obtain rfl := step_die hst
    exact hp.refl i _
  | env e =>
    cases hst
    exact (hp.env e s.mem (hfits _)).2.2 i

variable (exec act) in
/-- A step of thread `i` that both pools can take. -/
theorem SameBut.step_self (h : SameBut i s s') {o : Op} {k k' : Res o → Prog Op Res α}
    (hk' : s'.prog i = .call o k') :
    step exec act s' (.turn i) = some ⟨(exec o s.mem).2, upd s'.prog i (k' (exec o s.mem).1)⟩ ∧
      SameBut i ⟨(exec o s.mem).2, upd s.prog i (k (exec o s.mem).1)⟩
        ⟨(exec o s.mem).2, upd s'.prog i (k' (exec o s.mem).1)⟩ := by
  refine ⟨?_, rfl, fun j hj => ?_⟩
  · simp only [step, hk', h.mem]
  · show upd s'.prog i _ j = upd s.prog i _ j
    rw [upd_of_ne _ _ hj, upd_of_ne _ _ hj, h.prog j hj]

/-- A dead thread does not return. -/
theorem not_returned_of_die {ok : Pool ι Op Res α M → PoolEvent ι ε → Prop}
    {es : List (PoolEvent ι ε)} (hst : step exec act s (.die i) = some s₁)
    (hw : Walk (step exec act) ok s₁ es t) (a : α) : t.prog i ≠ .ret a := by
  intro hret
  obtain rfl := step_die hst
  have hdead : (upd s.prog i .abort i).Through (fun _ => True) (fun _ : α => False) := by
    rw [upd_self]
    trivial
  exact late_of_walk hw hdead hret

/-- Along a run in which it returns, a thread may be exchanged for a program that replays it. -/
theorem Walk.exchange (hp : Pact exec act Fits J S)
    (hQ : ∀ i a m m', Q i a m → S i m m' → Q i a m') (hfits : ∀ m, Fits m)
    {ok : Pool ι Op Res α M → PoolEvent ι ε → Prop} {es : List (PoolEvent ι ε)}
    (hw : Walk (step exec act) ok s es t) (hs : Sound exec Fits J S Q s) (hbut : SameBut i s s')
    (hrep : (s.prog i).Replays exec (S i) (s'.prog i) (fun _ _ => True) s.mem) {a : α}
    (hret : t.prog i = .ret a) : Walk (step exec act) anyStep s' es t := by
  induction es generalizing s s' with
  | nil =>
    cases hw
    rw [hret] at hrep
    exact hbut.eq (hrep.1.trans hret.symm)
  | cons e es ih =>
    obtain ⟨-, s₁, hst, hw⟩ := hw
    have hs₁ := hp.sound_step hQ s e s₁ hs trivial hst
    by_cases he : e = .turn i
    · subst he
      obtain ⟨o, k, hprog, rfl⟩ := step_turn hst
      rw [hprog] at hrep
      obtain ⟨k', hk', hrep⟩ := hrep
      obtain ⟨hst', hbut₁⟩ := hbut.step_self exec act (k := k) hk'
      refine ⟨trivial, _, hst', ih hw hs₁ hbut₁ ?_⟩
      show (upd s.prog i _ i).Replays _ _ (upd s'.prog i _ i) _ _
      rw [upd_self, upd_self]
      exact hrep _ (hp.refl i _)
    · by_cases hd : e = .die i
      · subst hd
        exact (not_returned_of_die hst hw a hret).elim
      · obtain ⟨s₁', hst', hbut₁, hprog, hprog'⟩ := hbut.step_other hst he hd
        refine ⟨trivial, s₁', hst', ih hw hs₁ hbut₁ ?_⟩
        rw [hprog, hprog']
        exact hrep.stable (hp.trans i) (fun _ _ _ h _ => h) (hs.others hp hfits hst he)

/-- **Run lemma.** Along a watched run that does not end late, the first part of thread `i`
    comes to its end, where `D` holds, and the thread may be exchanged. -/
theorem Walk.replay (hp : Pact exec act Fits J S)
    (hQ : ∀ i a m m', Q i a m → S i m m' → Q i a m') (hfits : ∀ m, Fits m) {D : β → M → Prop}
    (hD : ∀ b m m', D b m → S i m m' → D b m') {es : List (PoolEvent ι ε)}
    (hw : Walk (step exec act) (Watched i f C) s es t) (hs : Sound exec Fits J S Q s)
    (hbut : SameBut i s s') {q : Prog Op Res β} (hprog : s.prog i = q >>= f)
    (hprog' : s'.prog i = q >>= f')
    (hfirst : q.wpIf exec (S i) C (fun b m => (f b).Through (fun _ => True) late ∨
      D b m ∧ (f b).Replays exec (S i) (f' b) (fun _ _ => True) m) s.mem) {a : α}
    (hret : t.prog i = .ret a) (ha : ¬ late a) :
    (∃ es₁ es₂ s₁ b, es = es₁ ++ es₂ ∧ Walk (step exec act) (Watched i f C) s es₁ s₁ ∧
      Walk (step exec act) (Watched i f C) s₁ es₂ t ∧ s₁.prog i = f b ∧ D b s₁.mem) ∧
      Walk (step exec act) anyStep s' es t := by
  induction es generalizing s s' q with
  | nil =>
    cases hw
    cases q with
    | ret b =>
      replace hprog : t.prog i = f b := hprog
      rcases hfirst with hlate | ⟨hd, hrep⟩
      · rw [← hprog, hret] at hlate
        exact (ha hlate).elim
      · refine ⟨⟨[], [], t, b, rfl, rfl, rfl, hprog, hd⟩, hbut.eq ?_⟩
        rw [← hprog, hret] at hrep
        exact (hprog'.trans hrep.1).trans hret.symm
    | abort =>
      rw [hret] at hprog
      cases hprog
    | call o k =>
      rw [hret] at hprog
      cases hprog
  | cons e es ih =>
    have hwalk := hw
    obtain ⟨hwatch, s₁, hst, hw⟩ := hw
    have hs₁ := hp.sound_step hQ s e s₁ hs trivial hst
    cases q with
    | ret b =>
      -- the first part is over
      replace hprog : s.prog i = f b := hprog
      rcases hfirst with hlate | ⟨hd, hrep⟩
      · rw [← hprog] at hlate
        exact (ha (late_of_walk hwalk hlate hret)).elim
      · refine ⟨⟨[], _, s, b, rfl, rfl, hwalk, hprog, hd⟩, ?_⟩
        replace hprog' : s'.prog i = f' b := hprog'
        rw [← hprog, ← hprog'] at hrep
        exact Walk.exchange hp hQ hfits hwalk hs hbut hrep hret
    | abort =>
      -- a dead thread does not return
      have hdead : (s.prog i).Through (fun _ => True) (fun _ : α => False) := by
        rw [hprog]
        trivial
      exact (late_of_walk hwalk hdead hret).elim
    | call o k =>
      by_cases he : e = .turn i
      · subst he
        obtain ⟨o', k', hcall, rfl⟩ := step_turn hst
        have hCo := hwatch rfl o k hprog
        rw [hprog] at hcall
        cases hcall
        obtain ⟨hst', hbut₁⟩ := hbut.step_self exec act (k := fun res => k res >>= f) hprog'
        obtain ⟨⟨es₁, es₂, s₂, b, rfl, hw₁, hw₂, hb, hd⟩, hw'⟩ := ih hw hs₁ hbut₁
          (upd_self _ _ _) (upd_self _ _ _) (hfirst _ (hp.refl i _) hCo)
        exact ⟨⟨_ :: es₁, es₂, s₂, b, rfl, ⟨hwatch, _, hst, hw₁⟩, hw₂, hb, hd⟩,
          trivial, _, hst', hw'⟩
      · by_cases hd : e = .die i
        · subst hd
          exact (not_returned_of_die hst hw a hret).elim
        · obtain ⟨s₁', hst', hbut₁, heq, heq'⟩ := hbut.step_other hst he hd
          have hfirst₁ := Prog.wpIf_stable (hp.trans i) (fun b m m' h hm => ?_) hfirst
            (hs.others hp hfits hst he)
          · obtain ⟨⟨es₁, es₂, s₂, b, rfl, hw₁, hw₂, hb, hd'⟩, hw'⟩ := ih hw hs₁ hbut₁
              (heq.trans hprog) (heq'.trans hprog') hfirst₁
            exact ⟨⟨_ :: es₁, es₂, s₂, b, rfl, ⟨hwatch, _, hst, hw₁⟩, hw₂, hb, hd'⟩,
              trivial, _, hst', hw'⟩
          · rcases h with h | ⟨h, hrep⟩
            · exact .inl h
            · exact .inr ⟨hD b m m' h hm, hrep.stable (hp.trans i) (fun _ _ _ h _ => h) hm⟩

end Pool

end TfTree.Conc
