import Mathlib.Logic.Relation
import Mathlib.Tactic.Common
import TfTree.Data.Numerals

/-!
# Programs of atomic memory operations

A program is a tree of single memory operations: each operation is one atomic
access, the rest of the program continues with its result. The same program has

* a sequential meaning, `Prog.run`;
* crash prefixes, `Prog.runFor`: the memory left after a number of operations;
* an interleaved meaning, `Par`: two programs taking turns on one memory.

`Prog.wp` is a rely–guarantee weakest precondition: before every operation the
environment may change the memory by `R`, and the operation itself must respect
`G`. Its rules:

* `wp_bind`, `wp_mono`: sequencing and consequence;
* `wp_run`, `wp_runFor`: the sequential and the crash meaning (`R` is equality);
* `wp_par`: two programs whose guarantees are inside each other's relies;
* `wp_cut`, `wp_only`, `wp_through`: deaths, and programs of operations of one kind;
* `wp_bindE`: sequencing of programs with an error result, `ExceptT ε (Prog Op Res)`;
* `answer_bind`: a program whose operations answer as a function does.

`abort` is a failed arithmetic check; every triple is partial in that respect.
-/

namespace TfTree.Conc

/-- Programs over operations `Op`, where `o : Op` returns a value of `Res o`. -/
inductive Prog (Op : Type) (Res : Op → Type) (α : Type) : Type
  | ret (a : α) : Prog Op Res α
  | call (o : Op) (k : Res o → Prog Op Res α) : Prog Op Res α
  | abort : Prog Op Res α

namespace Prog

variable {Op : Type} {Res : Op → Type} {α β γ M : Type}

/-- Sequential composition. -/
def bind : Prog Op Res α → (α → Prog Op Res β) → Prog Op Res β
  | ret a, f => f a
  | call o k, f => call o fun r => (k r).bind f
  | abort, _ => abort

instance : Monad (Prog Op Res) where
  pure := ret
  bind := bind

@[simp] theorem pure_eq (a : α) : (pure a : Prog Op Res α) = ret a := rfl

@[simp] theorem ret_bind (a : α) (f : α → Prog Op Res β) : (ret a >>= f) = f a := rfl

@[simp] theorem call_bind (o : Op) (k : Res o → Prog Op Res α) (f : α → Prog Op Res β) :
    (call o k >>= f) = call o fun r => k r >>= f := rfl

@[simp] theorem abort_bind (f : α → Prog Op Res β) : ((abort : Prog Op Res α) >>= f) = abort := rfl

theorem bind_assoc (p : Prog Op Res α) (f : α → Prog Op Res β) (g : β → Prog Op Res γ) :
    (p >>= f) >>= g = p >>= fun a => f a >>= g := by
  induction p with
  | ret a => rfl
  | abort => rfl
  | call o k ih => simp only [call_bind, ih]

theorem bind_ret (p : Prog Op Res α) : (p >>= ret) = p := by
  induction p with
  | ret a => rfl
  | abort => rfl
  | call o k ih => simp only [call_bind, ih]

instance : LawfulMonad (Prog Op Res) := LawfulMonad.mk' _ bind_ret (fun _ _ => rfl) bind_assoc

/-- One operation. -/
def op (o : Op) : Prog Op Res (Res o) := call o ret

/-! ## Sequential meaning -/

/-- The result and the memory of a run nobody interferes with; `none` when the
    program aborts. -/
def run (exec : (o : Op) → M → Res o × M) : Prog Op Res α → M → Option (α × M)
  | ret a, m => some (a, m)
  | call o k, m => (k (exec o m).1).run exec (exec o m).2
  | abort, _ => none

/-- The memory after the first `n` operations: what a death at that point leaves. -/
def runFor (exec : (o : Op) → M → Res o × M) : ℕ → Prog Op Res α → M → M
  | n + 1, call o k, m => (k (exec o m).1).runFor exec n (exec o m).2
  | _, _, m => m

variable {exec : (o : Op) → M → Res o × M}

/-- A complete run is a crash prefix that is long enough. -/
theorem runFor_of_run {p : Prog Op Res α} {m m' : M} {a : α} (h : p.run exec m = some (a, m')) :
    ∃ N, ∀ n, N ≤ n → p.runFor exec n m = m' := by
  induction p generalizing m with
  | ret b =>
    cases h
    exact ⟨0, fun n _ => by cases n <;> rfl⟩
  | abort => cases h
  | call o k ih =>
    obtain ⟨N, hN⟩ := ih _ h
    refine ⟨N + 1, fun n hn => ?_⟩
    cases n with
    | zero => omega
    | succ n => exact hN n (by omega)

@[simp] theorem run_ret (a : α) (m : M) : (ret a : Prog Op Res α).run exec m = some (a, m) := rfl

@[simp] theorem run_abort (m : M) : (abort : Prog Op Res α).run exec m = none := rfl

@[simp] theorem run_bind (p : Prog Op Res α) (f : α → Prog Op Res β) (m : M) :
    (p >>= f).run exec m = (p.run exec m).bind fun am => (f am.1).run exec am.2 := by
  induction p generalizing m with
  | ret a => rfl
  | abort => rfl
  | call o k ih => exact ih _ _

/-- Sequencing after a program whose run is known. -/
theorem run_seq {p : Prog Op Res α} {f : α → Prog Op Res β} {m m' : M} {a : α}
    (h : p.run exec m = some (a, m')) : (p >>= f).run exec m = (f a).run exec m' := by
  rw [run_bind, h, Option.bind_some]

/-- No path of the program aborts. -/
def NoAbort : Prog Op Res α → Prop
  | ret _ => True
  | call _ k => ∀ r, (k r).NoAbort
  | abort => False

theorem NoAbort.op (o : Op) : (Prog.op o : Prog Op Res (Res o)).NoAbort := fun _ => trivial

theorem NoAbort.bind {p : Prog Op Res α} {f : α → Prog Op Res β} (hp : p.NoAbort)
    (hf : ∀ a, (f a).NoAbort) : (p >>= f).NoAbort := by
  induction p with
  | ret a => exact hf a
  | abort => exact hp.elim
  | call o k ih => exact fun r => ih r (hp r)

theorem NoAbort.run {p : Prog Op Res α} (hp : p.NoAbort) (m : M) :
    ∃ am, p.run exec m = some am := by
  induction p generalizing m with
  | ret a => exact ⟨_, rfl⟩
  | abort => exact hp.elim
  | call o k ih => exact ih _ (hp _) _

/-- The program returns and leaves the memory as it was. -/
def Returns (exec : (o : Op) → M → Res o × M) (m : M) (p : Prog Op Res α) : Prop :=
  ∃ a, p.run exec m = some (a, m)

theorem Returns.ret (a : α) (m : M) : (Prog.ret a : Prog Op Res α).Returns exec m := ⟨a, rfl⟩

theorem Returns.bind {p : Prog Op Res α} {f : α → Prog Op Res β} {m : M} (hp : p.Returns exec m)
    (hf : ∀ a, p.run exec m = some (a, m) → (f a).Returns exec m) :
    (p >>= f).Returns exec m := by
  obtain ⟨a, ha⟩ := hp
  obtain ⟨b, hb⟩ := hf a ha
  exact ⟨b, by rw [run_bind, ha, Option.bind_some, hb]⟩

theorem not_returns_abort {m : M} : ¬ (abort : Prog Op Res α).Returns exec m := by
  rintro ⟨a, ha⟩
  cases ha

theorem returns_seq {p : Prog Op Res α} {f : α → Prog Op Res β} {m : M} {a : α}
    (h : p.run exec m = some (a, m)) :
    (p >>= f).Returns exec m ↔ (f a).Returns exec m := by
  unfold Returns
  rw [run_seq h]

/-- A function of the result does not matter. -/
theorem returns_map {p : Prog Op Res α} {g : α → β} {m : M} :
    (p >>= fun a => ret (g a)).Returns exec m ↔ p.Returns exec m := by
  constructor
  · rintro ⟨b, hb⟩
    rw [run_bind] at hb
    obtain ⟨⟨a, m'⟩, ha, hret⟩ := Option.bind_eq_some_iff.mp hb
    cases hret
    exact ⟨a, ha⟩
  · exact fun h => h.bind fun a _ => Returns.ret _ _

/-- A program that returns got past its first part. -/
theorem Returns.of_bind {p : Prog Op Res α} {f : α → Prog Op Res β} {m : M}
    (h : (p >>= f).Returns exec m) (hp : ∀ a m', p.run exec m = some (a, m') → m' = m) :
    p.Returns exec m := by
  obtain ⟨b, hb⟩ := h
  rw [run_bind] at hb
  obtain ⟨⟨a, m'⟩, ha, -⟩ := Option.bind_eq_some_iff.mp hb
  obtain rfl := hp a m' ha
  exact ⟨a, ha⟩

/-! ## Rely–guarantee weakest precondition -/

/-- Every operation of the program respects `G` and every return satisfies `Q`,
    when the memory may change by `R` before each operation. -/
def wp (exec : (o : Op) → M → Res o × M) (R G : M → M → Prop) :
    Prog Op Res α → (α → M → Prop) → M → Prop
  | ret a, Q, m => Q a m
  | call o k, Q, m => ∀ m', R m m' →
      G m' (exec o m').2 ∧ (k (exec o m').1).wp exec R G Q (exec o m').2
  | abort, _, _ => True

variable {R G : M → M → Prop}

@[simp] theorem wp_ret (a : α) (Q : α → M → Prop) (m : M) :
    (ret a : Prog Op Res α).wp exec R G Q m ↔ Q a m := Iff.rfl

@[simp] theorem wp_abort (Q : α → M → Prop) (m : M) :
    (abort : Prog Op Res α).wp exec R G Q m ↔ True := Iff.rfl

@[simp] theorem wp_op (o : Op) (Q : Res o → M → Prop) (m : M) :
    (op o : Prog Op Res (Res o)).wp exec R G Q m ↔
      ∀ m', R m m' → G m' (exec o m').2 ∧ Q (exec o m').1 (exec o m').2 := Iff.rfl

theorem wp_mono {p : Prog Op Res α} {Q Q' : α → M → Prop} (hQ : ∀ a m, Q a m → Q' a m) {m : M}
    (h : p.wp exec R G Q m) : p.wp exec R G Q' m := by
  induction p generalizing m with
  | ret a => exact hQ a m h
  | abort => trivial
  | call o k ih => exact fun m' hm => ⟨(h m' hm).1, ih _ (h m' hm).2⟩

theorem wp_bind (p : Prog Op Res α) (f : α → Prog Op Res β) (Q : β → M → Prop) (m : M) :
    (p >>= f).wp exec R G Q m ↔ p.wp exec R G (fun a m => (f a).wp exec R G Q m) m := by
  induction p generalizing m with
  | ret a => rfl
  | abort => rfl
  | call o k ih =>
    exact forall_congr' fun m' => imp_congr_right fun _ => and_congr_right fun _ => ih _ _

/-- Sequencing, in the direction proofs use it. -/
theorem wp_seq {p : Prog Op Res α} {f : α → Prog Op Res β} {Q : β → M → Prop} {m : M}
    (h : p.wp exec R G (fun a m => (f a).wp exec R G Q m) m) : (p >>= f).wp exec R G Q m :=
  (wp_bind p f Q m).mpr h

/-- Nothing asked of the operations or the result. -/
theorem wp_true (p : Prog Op Res α) (m : M) :
    p.wp exec R (fun _ _ => True) (fun _ _ => True) m := by
  induction p generalizing m with
  | ret a => trivial
  | abort => trivial
  | call o k ih => exact fun m' _ => ⟨trivial, ih _ _⟩

/-- A precondition survives a move of the environment, if the postcondition does. -/
theorem wp_stable (hR : ∀ m m' m'', R m m' → R m' m'' → R m m'') {p : Prog Op Res α}
    {Q : α → M → Prop} (hQ : ∀ a m m', Q a m → R m m' → Q a m') {m m' : M}
    (h : p.wp exec R G Q m) (hm : R m m') : p.wp exec R G Q m' := by
  cases p with
  | ret a => exact hQ a m m' h hm
  | abort => trivial
  | call o k => exact fun m'' hm' => h m'' (hR _ _ _ hm hm')

/-- What both sides preserve is still there at the end. -/
theorem wp_frame {P : M → Prop} (hR : ∀ m m', P m → R m m' → P m')
    (hG : ∀ m m', P m → G m m' → P m') {p : Prog Op Res α} {Q : α → M → Prop} {m : M}
    (hP : P m) (h : p.wp exec R G Q m) : p.wp exec R G (fun a m' => P m' ∧ Q a m') m := by
  induction p generalizing m with
  | ret a => exact ⟨hP, h⟩
  | abort => trivial
  | call o k ih =>
    intro m' hm
    obtain ⟨hg, hk⟩ := h m' hm
    exact ⟨hg, ih _ (hG _ _ (hR _ _ hP hm) hg) hk⟩

/-- One operation nobody interferes with. -/
theorem wp_op_eq {o : Op} {Q : Res o → M → Prop} {m : M} (hG : G m (exec o m).2)
    (hQ : Q (exec o m).1 (exec o m).2) : (op o : Prog Op Res (Res o)).wp exec Eq G Q m := by
  rintro m' rfl
  exact ⟨hG, hQ⟩

/-- Sequential runs. -/
theorem wp_run {p : Prog Op Res α} {Q : α → M → Prop} {m m' : M} {a : α}
    (h : p.wp exec Eq G Q m) (hr : p.run exec m = some (a, m')) : Q a m' := by
  induction p generalizing m with
  | ret b => cases hr; exact h
  | abort => cases hr
  | call o k ih => exact ih _ (h m rfl).2 hr

/-- Crash prefixes: an invariant that the guarantee preserves holds wherever the
    program is cut. -/
theorem wp_runFor {I : M → Prop} (hI : ∀ m m', I m → G m m' → I m') {p : Prog Op Res α}
    {Q : α → M → Prop} {m : M} (hm : I m) (h : p.wp exec Eq G Q m) (n : ℕ) :
    I (p.runFor exec n m) := by
  induction p generalizing m n with
  | ret a => cases n <;> exact hm
  | abort => cases n <;> exact hm
  | call o k ih =>
    cases n with
    | zero => exact hm
    | succ n => exact ih _ (hI _ _ hm (h m rfl).1) (h m rfl).2 n

/-! ## Deaths, and what a program may touch -/

/-- The program that stops after `n` operations. -/
def cut : ℕ → Prog Op Res α → Prog Op Res Unit
  | n + 1, call o k => call o fun r => (k r).cut n
  | _, _ => ret ()

/-- An invariant of the guarantee holds wherever the program stops. -/
theorem wp_cut {I : M → Prop} (hI : ∀ m m', I m → G m m' → I m') {p : Prog Op Res α}
    {Q : α → M → Prop} {m : M} (hm : I m) (h : p.wp exec Eq G Q m) (n : ℕ) :
    (p.cut n).wp exec Eq G (fun _ m' => I m') m := by
  induction p generalizing m n with
  | ret a => cases n <;> exact hm
  | abort => cases n <;> exact hm
  | call o k ih =>
    cases n with
    | zero => exact hm
    | succ n =>
      rintro m' rfl
      obtain ⟨hg, hk⟩ := h m rfl
      exact ⟨hg, ih _ (hI _ _ hm hg) hk n⟩

/-- Every operation of the program is in `S`, whatever the operations return. -/
def Only (S : Op → Prop) : Prog Op Res α → Prop
  | ret _ => True
  | call o k => S o ∧ ∀ r, (k r).Only S
  | abort => True

theorem Only.op {S : Op → Prop} {o : Op} (h : S o) :
    (Prog.op o : Prog Op Res (Res o)).Only S := ⟨h, fun _ => trivial⟩

theorem Only.bind {S : Op → Prop} {p : Prog Op Res α} {f : α → Prog Op Res β} (hp : p.Only S)
    (hf : ∀ a, (f a).Only S) : (p >>= f).Only S := by
  induction p with
  | ret a => exact hf a
  | abort => trivial
  | call o k ih => exact ⟨hp.1, fun r => ih r (hp.2 r)⟩

/-- A program whose operations keep `I` and respect `G` where `I` holds. -/
theorem wp_only {S : Op → Prop} {I : M → Prop}
    (hS : ∀ o m, S o → I m → G m (exec o m).2 ∧ I (exec o m).2) {p : Prog Op Res α}
    (hp : p.Only S) {m : M} (hm : I m) : p.wp exec Eq G (fun _ m' => I m') m := by
  induction p generalizing m with
  | ret a => exact hm
  | abort => trivial
  | call o k ih =>
    rintro m' rfl
    obtain ⟨hg, hi⟩ := hS o m hp.1 hm
    exact ⟨hg, ih _ (hp.2 _) hi⟩

/-- A program does the same in two memories whose difference none of its operations sees. -/
theorem run_agree {S : Op → Prop} {R : M → M → Prop}
    (hS : ∀ o m m', S o → R m m' → (exec o m).1 = (exec o m').1 ∧ R (exec o m).2 (exec o m').2)
    {p : Prog Op Res α} (hp : p.Only S) {m m' : M} (hm : R m m') :
    (p.run exec m = none ∧ p.run exec m' = none) ∨
      ∃ a n n', p.run exec m = some (a, n) ∧ p.run exec m' = some (a, n') ∧ R n n' := by
  induction p generalizing m m' with
  | ret a => exact .inr ⟨a, m, m', rfl, rfl, hm⟩
  | abort => exact .inl ⟨rfl, rfl⟩
  | call o k ih =>
    obtain ⟨hres, hmem⟩ := hS o m m' hp.1 hm
    have hk := ih (exec o m).1 (hp.2 _) hmem
    show ((k (exec o m).1).run exec (exec o m).2 = none ∧
      (k (exec o m').1).run exec (exec o m').2 = none) ∨ _
    rw [← hres]
    rcases hk with hnone | ⟨a, n, n', hrun, hrun', hR⟩
    · exact .inl hnone
    · refine .inr ⟨a, n, n', hrun, ?_, hR⟩
      show (k (exec o m').1).run exec (exec o m').2 = _
      rw [← hres]
      exact hrun'

/-- Every operation of the program is in `S` and every result satisfies `Q`, whatever
    the operations return. -/
def Through (S : Op → Prop) (Q : α → Prop) : Prog Op Res α → Prop
  | ret a => Q a
  | call o k => S o ∧ ∀ r, (k r).Through S Q
  | abort => True

theorem Through.op {S : Op → Prop} {o : Op} (h : S o) :
    (Prog.op o : Prog Op Res (Res o)).Through S fun _ => True := ⟨h, fun _ => trivial⟩

theorem Through.bind {S : Op → Prop} {P : α → Prop} {Q : β → Prop} {p : Prog Op Res α}
    {f : α → Prog Op Res β} (hp : p.Through S P) (hf : ∀ a, P a → (f a).Through S Q) :
    (p >>= f).Through S Q := by
  induction p with
  | ret a => exact hf a hp
  | abort => trivial
  | call o k ih => exact ⟨hp.1, fun r => ih r (hp.2 r)⟩

theorem Through.mono {S : Op → Prop} {P Q : α → Prop} {p : Prog Op Res α} (hp : p.Through S P)
    (h : ∀ a, P a → Q a) : p.Through S Q := by
  induction p with
  | ret a => exact h a hp
  | abort => trivial
  | call o k ih => exact ⟨hp.1, fun r => ih r (hp.2 r)⟩

/-- Continuations that agree on what a program may return. -/
theorem Through.bind_congr {S : Op → Prop} {Q : α → Prop} {p : Prog Op Res α}
    {f g : α → Prog Op Res β} (hp : p.Through S Q) (h : ∀ a, Q a → f a = g a) :
    (p >>= f) = (p >>= g) := by
  induction p with
  | ret a => exact h a hp
  | abort => rfl
  | call o k ih =>
    rw [call_bind, call_bind]
    congr 1
    funext r
    exact ih r (hp.2 r)

theorem Through.run_eq {S : Op → Prop} (hS : ∀ o m, S o → (exec o m).2 = m) {p : Prog Op Res α}
    {Q : α → Prop} (hp : p.Through S Q) {m m' : M} {a : α} (h : p.run exec m = some (a, m')) :
    m' = m := by
  induction p generalizing m with
  | ret b =>
    cases h
    rfl
  | abort => cases h
  | call o k ih => exact (ih _ (hp.2 _) h).trans (hS o m hp.1)

/-- A program that only reads establishes what its results satisfy in any environment. -/
theorem wp_through {S : Op → Prop} (hS : ∀ o m, S o → (exec o m).2 = m) {p : Prog Op Res α}
    {Q : α → Prop} (hp : p.Through S Q) (m : M) : p.wp exec R Eq (fun a _ => Q a) m := by
  induction p generalizing m with
  | ret a => exact hp
  | abort => trivial
  | call o k ih => exact fun m' _ => ⟨(hS o m' hp.1).symm, ih _ (hp.2 _) _⟩

/-- A program that only reads, on a memory that nobody changes. -/
theorem wp_of_run {S : Op → Prop} (hS : ∀ o m, S o → (exec o m).2 = m) {p : Prog Op Res α}
    {P : α → Prop} (hp : p.Through S P) {Q : α → M → Prop} {m : M}
    (h : ∀ a, p.run exec m = some (a, m) → Q a m) : p.wp exec Eq Eq Q m := by
  induction p with
  | ret a => exact h a rfl
  | abort => trivial
  | call o k ih =>
    rintro m' rfl
    have hm := hS o m hp.1
    refine ⟨hm.symm, ?_⟩
    rw [hm]
    refine ih _ (hp.2 _) fun a ha => h a ?_
    rw [run, hm]
    exact ha

/-- The program returns `a` for some results of its operations. -/
inductive MayReturn (a : α) : Prog Op Res α → Prop
  | ret : MayReturn a (ret a)
  | call {o : Op} {k : Res o → Prog Op Res α} (r : Res o) (h : MayReturn a (k r)) :
    MayReturn a (call o k)

theorem Through.mayReturn {S : Op → Prop} {Q : α → Prop} {p : Prog Op Res α}
    (hp : p.Through S Q) : p.Through S fun a => p.MayReturn a := by
  induction p with
  | ret a => exact .ret
  | abort => trivial
  | call o k ih => exact ⟨hp.1, fun r => (ih r (hp.2 r)).mono fun a ha => .call r ha⟩

/-- `P` of the memory and the program after the next operation, if there is one. -/
def Next (exec : (o : Op) → M → Res o × M) (P : M → Prog Op Res α → Prop) :
    Prog Op Res α → M → Prop
  | call o k, m => P (exec o m).2 (k (exec o m).1)
  | _, _ => True

theorem Next.of_wp {p : Prog Op Res α} {Q : α → M → Prop} {m : M} (hm : R m m)
    (h : p.wp exec R G Q m) : p.Next exec (fun m' p' => G m m' ∧ p'.wp exec R G Q m') m := by
  cases p with
  | ret a => trivial
  | abort => trivial
  | call o k => exact h m hm

/-! ## Programs with an error result -/

section Except

variable {ε : Type}

/-- `Q` of the value, if there is one. -/
def onOk (Q : α → M → Prop) : Except ε α → M → Prop
  | .ok a, m => Q a m
  | .error _, _ => True

@[simp] theorem onOk_ok (Q : α → M → Prop) (a : α) (m : M) :
    onOk (ε := ε) Q (.ok a) m ↔ Q a m := Iff.rfl

@[simp] theorem onOk_error (Q : α → M → Prop) (e : ε) (m : M) : onOk Q (.error e) m ↔ True :=
  Iff.rfl

theorem wp_bindE {p : ExceptT ε (Prog Op Res) α} {f : α → ExceptT ε (Prog Op Res) β}
    {Q : β → M → Prop} {m : M}
    (h : p.run.wp exec R G (onOk fun a m => (f a).run.wp exec R G (onOk Q) m) m) :
    (p >>= f).run.wp exec R G (onOk Q) m := by
  rw [ExceptT.run_bind]
  refine wp_seq (wp_mono ?_ h)
  intro a m h
  cases a with
  | ok a => exact h
  | error e => trivial

theorem wp_liftE {p : Prog Op Res α} {Q : α → M → Prop} {m : M} (h : p.wp exec R G Q m) :
    (liftM p : ExceptT ε (Prog Op Res) α).run.wp exec R G (onOk Q) m := by
  change (Functor.map Except.ok p).wp exec R G (onOk Q) m
  rw [← bind_pure_comp]
  exact wp_seq (wp_mono (fun a m h => h) h)

/-- `E` of the error, if there is one. -/
def onError (E : ε → Prop) : Except ε α → Prop
  | .ok _ => True
  | .error e => E e

theorem Through.bindE {S : Op → Prop} {E : ε → Prop} {p : ExceptT ε (Prog Op Res) α}
    {f : α → ExceptT ε (Prog Op Res) β} (hp : p.run.Through S (onError E))
    (hf : ∀ a, (f a).run.Through S (onError E)) : (p >>= f).run.Through S (onError E) := by
  rw [ExceptT.run_bind]
  refine hp.bind fun a ha => ?_
  cases a with
  | ok a => exact hf a
  | error e => exact ha

theorem Through.liftE {S : Op → Prop} {E : ε → Prop} {P : α → Prop} {p : Prog Op Res α}
    (hp : p.Through S P) :
    (liftM p : ExceptT ε (Prog Op Res) α).run.Through S (onError E) := by
  change (Functor.map Except.ok p).Through S (onError E)
  rw [← bind_pure_comp]
  exact hp.bind fun a _ => trivial

@[simp] theorem run_bindE (p : ExceptT ε (Prog Op Res) α) (f : α → ExceptT ε (Prog Op Res) β)
    (m : M) : (p >>= f).run.run exec m = (p.run.run exec m).bind fun
      | (.ok a, m) => (f a).run.run exec m
      | (.error e, m) => some (.error e, m) := by
  rw [ExceptT.run_bind, run_bind]
  congr 1
  funext ⟨a, m⟩
  cases a <;> rfl

@[simp] theorem run_liftE (p : Prog Op Res α) (m : M) :
    (liftM p : ExceptT ε (Prog Op Res) α).run.run exec m =
      (p.run exec m).map fun am => (.ok am.1, am.2) := by
  change (Functor.map Except.ok p).run exec m = _
  rw [← bind_pure_comp, run_bind]
  cases p.run exec m <;> rfl

@[simp] theorem run_pureE (a : α) (m : M) :
    (pure a : ExceptT ε (Prog Op Res) α).run.run exec m = some (.ok a, m) := rfl

@[simp] theorem run_throwE (e : ε) (m : M) :
    (throw e : ExceptT ε (Prog Op Res) α).run.run exec m = some (.error e, m) := rfl

theorem Returns.bindE {p : ExceptT ε (Prog Op Res) α} {f : α → ExceptT ε (Prog Op Res) β} {m : M}
    (hp : p.run.Returns exec m)
    (hf : ∀ a, p.run.run exec m = some (.ok a, m) → (f a).run.Returns exec m) :
    (p >>= f).run.Returns exec m := by
  rw [ExceptT.run_bind]
  refine hp.bind fun a ha => ?_
  cases a with
  | ok a => exact hf a ha
  | error e => exact Returns.ret _ _

theorem Returns.liftE {p : Prog Op Res α} {m : M} (hp : p.Returns exec m) :
    (liftM p : ExceptT ε (Prog Op Res) α).run.Returns exec m := by
  obtain ⟨a, ha⟩ := hp
  exact ⟨.ok a, by rw [run_liftE, ha]; rfl⟩

section Returns

variable {p : ExceptT ε (Prog Op Res) α} {q : Prog Op Res α} {f : α → ExceptT ε (Prog Op Res) β}
  {m m' : M} {a : α} {e : ε}

theorem returnsE_seq (h : p.run.run exec m = some (.ok a, m)) :
    (p >>= f).run.Returns exec m ↔ (f a).run.Returns exec m := by
  rw [ExceptT.run_bind]
  exact returns_seq h

theorem returnsE_error (h : p.run.run exec m = some (.error e, m)) :
    (p >>= f).run.Returns exec m := by
  rw [ExceptT.run_bind]
  exact (returns_seq h).mpr (Returns.ret _ _)

theorem returnsE_lift (h : q.run exec m = some (a, m)) :
    ((liftM q : ExceptT ε (Prog Op Res) α) >>= f).run.Returns exec m ↔
      (f a).run.Returns exec m :=
  returnsE_seq (by rw [run_liftE, h]; rfl)

theorem returnsE_pure :
    ((liftM (pure a : Prog Op Res α) : ExceptT ε (Prog Op Res) α) >>= f).run.Returns
      exec m ↔ (f a).run.Returns exec m :=
  returnsE_lift (run_ret a m)

theorem returnsE_map {g : α → β} : (p >>= fun a => pure (g a)).run.Returns exec m ↔
    p.run.Returns exec m := by
  unfold Returns
  simp only [run_bindE]
  cases p.run.run exec m with
  | none => simp
  | some out =>
    obtain ⟨x, m'⟩ := out
    cases x <;> simp

theorem not_returnsE_abort :
    ¬ ((liftM (abort : Prog Op Res α) : ExceptT ε (Prog Op Res) α) >>= f).run.Returns exec m := by
  rintro ⟨b, hb⟩
  cases hb

end Returns

end Except

/-! ## Programs against fixed answers -/

section Answer

variable {ε : Type} {h : (o : Op) → Except ε (Res o)}

/-- The result when every operation `o` answers `h o`; an error ends the program. -/
def answer (h : (o : Op) → Except ε (Res o)) : Prog Op Res α → Option (Except ε α)
  | ret a => some (.ok a)
  | call o k =>
    match h o with
    | .error e => some (.error e)
    | .ok r => (k r).answer h
  | abort => none

/-- The same for a program that may fail on its own. -/
def answerE (h : (o : Op) → Except ε (Res o)) (p : ExceptT ε (Prog Op Res) α) :
    Option (Except ε α) := (p.run.answer h).map fun r => r.bind id

theorem answer_bind (p : Prog Op Res α) (f : α → Prog Op Res β) :
    (p >>= f).answer h = (p.answer h).bind fun
      | .error e => some (.error e)
      | .ok a => (f a).answer h := by
  induction p with
  | ret a => rfl
  | abort => rfl
  | call o k ih =>
    rw [call_bind, answer, answer]
    cases h o with
    | error e => rfl
    | ok r => exact ih r

theorem answerE_bind (p : ExceptT ε (Prog Op Res) α) (f : α → ExceptT ε (Prog Op Res) β) :
    answerE h (p >>= f) = (answerE h p).bind fun
      | .error e => some (.error e)
      | .ok a => answerE h (f a) := by
  rw [answerE, answerE, ExceptT.run_bind, answer_bind]
  cases p.run.answer h with
  | none => rfl
  | some r =>
    cases r with
    | error e => rfl
    | ok r => cases r <;> rfl

/-- Sequencing after a program whose answer is known. -/
theorem answerE_seq {p : ExceptT ε (Prog Op Res) α} {f : α → ExceptT ε (Prog Op Res) β} {a : α}
    (hp : answerE h p = some (.ok a)) : answerE h (p >>= f) = answerE h (f a) := by
  rw [answerE_bind, hp, Option.bind_some]

theorem answerE_error {p : ExceptT ε (Prog Op Res) α} {f : α → ExceptT ε (Prog Op Res) β} {e : ε}
    (hp : answerE h p = some (.error e)) : answerE h (p >>= f) = some (.error e) := by
  rw [answerE_bind, hp, Option.bind_some]

/-- The result of a program is that of a computation, up to `R`. -/
def Agrees (R : α → β → Prop) : Option (Except ε α) → Except ε β → Prop
  | some (.ok a), .ok b => R a b
  | some (.error e), .error e' => e = e'
  | _, _ => False

theorem Agrees.of_eq {x : Option (Except ε α)} {y : Except ε α} (h : x = some y) :
    Agrees Eq x y := by
  subst h
  cases y <;> rfl

/-- Sequencing on both sides. -/
theorem Agrees.bind {α' β' : Type} {R : α → α' → Prop} {S : β → β' → Prop}
    {p : ExceptT ε (Prog Op Res) α} {x : Except ε α'} {f : α → ExceptT ε (Prog Op Res) β}
    {g : α' → Except ε β'} (hp : Agrees R (answerE h p) x)
    (hf : ∀ a a', R a a' → Agrees S (answerE h (f a)) (g a')) :
    Agrees S (answerE h (p >>= f)) (x >>= g) := by
  rw [answerE_bind]
  match answerE h p, x, hp with
  | some (.ok a), .ok a', hr => exact hf a a' hr
  | some (.error e), .error e', he => exact he

/-- What the computation still does with its value. -/
theorem Agrees.map {α' β' : Type} {R : α → α' → Prop} {S : α → β' → Prop}
    {x : Option (Except ε α)} {y : Except ε α'} {g : α' → β'} (hp : Agrees R x y)
    (hg : ∀ a a', R a a' → S a (g a')) : Agrees S x (y >>= fun a' => pure (g a')) := by
  match x, y, hp with
  | some (.ok a), .ok a', hr => exact hg a a' hr
  | some (.error e), .error e', he => exact he

end Answer

end Prog

/-! ## Two programs on one memory -/

section Par

variable {Op : Type} {Res : Op → Type} {α β M : Type} (exec : (o : Op) → M → Res o × M)

/-- One atomic step of either program. -/
inductive ParStep : M × Prog Op Res α × Prog Op Res β → M × Prog Op Res α × Prog Op Res β → Prop
  | left (m : M) (o : Op) (k : Res o → Prog Op Res α) (q : Prog Op Res β) :
      ParStep (m, .call o k, q) ((exec o m).2, k (exec o m).1, q)
  | right (m : M) (p : Prog Op Res α) (o : Op) (k : Res o → Prog Op Res β) :
      ParStep (m, p, .call o k) ((exec o m).2, p, k (exec o m).1)

/-- Any number of steps, interleaved in any order. -/
def Par : M × Prog Op Res α × Prog Op Res β → M × Prog Op Res α × Prog Op Res β → Prop :=
  Relation.ReflTransGen (ParStep exec)

variable {exec}

/-- The schedule that runs the left program alone. -/
theorem par_left {p : Prog Op Res α} {q : Prog Op Res β} {m m' : M} {a : α}
    (h : p.run exec m = some (a, m')) : Par exec (m, p, q) (m', .ret a, q) := by
  induction p generalizing m with
  | ret b => cases h; exact .refl
  | abort => cases h
  | call o k ih => exact .head (.left m o k q) (ih _ h)

/-- The schedule that runs the right program alone. -/
theorem par_right {p : Prog Op Res α} {q : Prog Op Res β} {m m' : M} {b : β}
    (h : q.run exec m = some (b, m')) : Par exec (m, p, q) (m', p, .ret b) := by
  induction q generalizing m with
  | ret b => cases h; exact .refl
  | abort => cases h
  | call o k ih => exact .head (.right m p o k) (ih _ h)

/-- Whose operation comes next. -/
inductive Turn where
  | left
  | right
  deriving DecidableEq, Repr

variable (exec) in
/-- One atomic step of the program whose turn it is. -/
def parTurn (s : M × Prog Op Res α × Prog Op Res β) :
    Turn → Option (M × Prog Op Res α × Prog Op Res β)
  | .left =>
    match s.2.1 with
    | .call o k => some ((exec o s.1).2, k (exec o s.1).1, s.2.2)
    | .ret _ => none
    | .abort => none
  | .right =>
    match s.2.2 with
    | .call o k => some ((exec o s.1).2, s.2.1, k (exec o s.1).1)
    | .ret _ => none
    | .abort => none

theorem parStep_of_parTurn {s s' : M × Prog Op Res α × Prog Op Res β} {turn : Turn}
    (h : parTurn exec s turn = some s') : ParStep exec s s' := by
  obtain ⟨m, p, q⟩ := s
  cases turn with
  | left =>
    cases p with
    | ret a => cases h
    | abort => cases h
    | call o k =>
      cases h
      exact .left m o k q
  | right =>
    cases q with
    | ret b => cases h
    | abort => cases h
    | call o k =>
      cases h
      exact .right m p o k

/-- A schedule that executes. -/
theorem par_of_turns {turns : List Turn} {s s' : M × Prog Op Res α × Prog Op Res β}
    (h : turns.foldlM (parTurn exec) s = some s') : Par exec s s' := by
  induction turns generalizing s with
  | nil =>
    cases h
    exact .refl
  | cons turn turns ih =>
    obtain ⟨s₁, hstep, hrest⟩ := Option.bind_eq_some_iff.mp h
    exact .head (parStep_of_parTurn hstep) (ih hrest)

theorem parTurn_left {P : M → Prog Op Res α → Prop} {m : M} {p : Prog Op Res α}
    {q : Prog Op Res β} {s' : M × Prog Op Res α × Prog Op Res β} (hp : p.Next exec P m)
    (h : parTurn exec (m, p, q) .left = some s') : P s'.1 s'.2.1 ∧ s'.2.2 = q := by
  cases p with
  | ret a => cases h
  | abort => cases h
  | call o k =>
    cases h
    exact ⟨hp, rfl⟩

theorem parTurn_right {P : M → Prog Op Res β → Prop} {m : M} {p : Prog Op Res α}
    {q : Prog Op Res β} {s' : M × Prog Op Res α × Prog Op Res β} (hq : q.Next exec P m)
    (h : parTurn exec (m, p, q) .right = some s') : P s'.1 s'.2.2 ∧ s'.2.1 = p := by
  cases q with
  | ret a => cases h
  | abort => cases h
  | call o k =>
    cases h
    exact ⟨hq, rfl⟩

/-- **Parallel composition.** If the guarantee of each program is inside the
    rely of the other, both triples hold along every interleaving. -/
theorem wp_par {R₁ G₁ R₂ G₂ : M → M → Prop} (h₁₂ : ∀ m m', G₁ m m' → R₂ m m')
    (h₂₁ : ∀ m m', G₂ m m' → R₁ m m') (hR₁ : ∀ m m' m'', R₁ m m' → R₁ m' m'' → R₁ m m'')
    (hR₂ : ∀ m m' m'', R₂ m m' → R₂ m' m'' → R₂ m m'') (hr₁ : ∀ m, R₁ m m) (hr₂ : ∀ m, R₂ m m)
    {Q₁ : α → M → Prop} {Q₂ : β → M → Prop} (hQ₁ : ∀ a m m', Q₁ a m → R₁ m m' → Q₁ a m')
    (hQ₂ : ∀ b m m', Q₂ b m → R₂ m m' → Q₂ b m') {m m' : M} {p p' : Prog Op Res α}
    {q q' : Prog Op Res β} (hp : p.wp exec R₁ G₁ Q₁ m) (hq : q.wp exec R₂ G₂ Q₂ m)
    (h : Par exec (m, p, q) (m', p', q')) :
    p'.wp exec R₁ G₁ Q₁ m' ∧ q'.wp exec R₂ G₂ Q₂ m' := by
  generalize hs : (m', p', q') = s' at h
  induction h generalizing m' p' q' with
  | refl => cases hs; exact ⟨hp, hq⟩
  | tail _ hst ih =>
    cases hst with
    | left m₁ o k q₁ =>
      cases hs
      obtain ⟨hp₁, hq₁⟩ := ih rfl
      obtain ⟨hg, hk⟩ := hp₁ m₁ (hr₁ m₁)
      exact ⟨hk, Prog.wp_stable hR₂ hQ₂ hq₁ (h₁₂ _ _ hg)⟩
    | right m₁ p₁ o k =>
      cases hs
      obtain ⟨hp₁, hq₁⟩ := ih rfl
      obtain ⟨hg, hk⟩ := hq₁ m₁ (hr₂ m₁)
      exact ⟨Prog.wp_stable hR₁ hQ₁ hp₁ (h₂₁ _ _ hg), hk⟩

end Par

end TfTree.Conc
