import Mathlib
import TfTree.Conc.Prog

/-!
# Where a program is cut

The number of operations of a run, what is left of a sequence that is cut after `n` of
them, and whether a check failed on the way. The operations of a program may be a part of
a larger set of operations.

Results:
* `runFor_seq`, `fails_seq`: a cut falls in the first part or in the rest.
* `runFor_only`: an invariant of every operation holds wherever the program is cut.
* `run_inl`, `cost_inl`, `runFor_inl`: more operations change nothing.
-/

namespace TfTree.Conc.Prog

variable {Op Op' : Type} {Res : Op → Type} {Res' : Op' → Type} {α β M : Type}
variable {exec : (o : Op) → M → Res o × M}

/-! ## The length of a run -/

/-- The number of operations of a run. -/
def cost (exec : (o : Op) → M → Res o × M) : Prog Op Res α → M → ℕ
  | call o k, m => (k (exec o m).1).cost exec (exec o m).2 + 1
  | ret _, _ => 0
  | abort, _ => 0

/-- A check fails within the first `n` operations. -/
def fails (exec : (o : Op) → M → Res o × M) : ℕ → Prog Op Res α → M → Bool
  | _, abort, _ => true
  | _, ret _, _ => false
  | 0, call _ _, _ => false
  | n + 1, call o k, m => (k (exec o m).1).fails exec n (exec o m).2

theorem run_call (o : Op) (k : Res o → Prog Op Res α) (m : M) :
    (call o k).run exec m = (k (exec o m).1).run exec (exec o m).2 := rfl

theorem runFor_call (n : ℕ) (o : Op) (k : Res o → Prog Op Res α) (m : M) :
    (call o k).runFor exec (n + 1) m = (k (exec o m).1).runFor exec n (exec o m).2 := rfl

theorem cost_call (o : Op) (k : Res o → Prog Op Res α) (m : M) :
    (call o k).cost exec m = (k (exec o m).1).cost exec (exec o m).2 + 1 := rfl

theorem fails_call (n : ℕ) (o : Op) (k : Res o → Prog Op Res α) (m : M) :
    (call o k).fails exec (n + 1) m = (k (exec o m).1).fails exec n (exec o m).2 := rfl

@[simp] theorem cost_ret (a : α) (m : M) : (ret a : Prog Op Res α).cost exec m = 0 := rfl

@[simp] theorem cost_op (o : Op) (m : M) :
    (op o : Prog Op Res (Res o)).cost exec m = 1 := rfl

theorem cost_seq {p : Prog Op Res α} {f : α → Prog Op Res β} {m m' : M} {a : α}
    (h : p.run exec m = some (a, m')) :
    (p >>= f).cost exec m = p.cost exec m + (f a).cost exec m' := by
  induction p generalizing m with
  | ret b =>
    cases h
    exact (Nat.zero_add _).symm
  | abort => cases h
  | call o k ih =>
    have hk := ih _ h
    simp only [call_bind, cost_call]
    omega

/-! ## Cuts -/

@[simp] theorem runFor_zero (p : Prog Op Res α) (m : M) : p.runFor exec 0 m = m := by
  cases p <;> rfl

@[simp] theorem runFor_ret (a : α) (n : ℕ) (m : M) :
    (ret a : Prog Op Res α).runFor exec n m = m := by
  cases n <;> rfl

@[simp] theorem fails_ret (a : α) (n : ℕ) (m : M) :
    (ret a : Prog Op Res α).fails exec n m = false := by
  cases n <;> rfl

@[simp] theorem fails_abort (n : ℕ) (m : M) :
    (abort : Prog Op Res α).fails exec n m = true := by
  cases n <;> rfl

/-- A cut of a sequence, after a first part whose run is known. -/
theorem runFor_seq {p : Prog Op Res α} {f : α → Prog Op Res β} {m m' : M} {a : α}
    (h : p.run exec m = some (a, m')) (n : ℕ) :
    (p >>= f).runFor exec n m = if n < p.cost exec m then p.runFor exec n m
      else (f a).runFor exec (n - p.cost exec m) m' := by
  induction p generalizing m n with
  | ret b =>
    cases h
    rfl
  | abort => cases h
  | call o k ih =>
    cases n with
    | zero => rfl
    | succ n =>
      have hk := ih _ h n
      simp only [call_bind, runFor_call, cost_call, hk, Nat.add_lt_add_iff_right,
        Nat.add_sub_add_right]

theorem fails_seq {p : Prog Op Res α} {f : α → Prog Op Res β} {m m' : M} {a : α}
    (h : p.run exec m = some (a, m')) (n : ℕ) :
    (p >>= f).fails exec n m = if n < p.cost exec m then false
      else (f a).fails exec (n - p.cost exec m) m' := by
  induction p generalizing m n with
  | ret b =>
    cases h
    rfl
  | abort => cases h
  | call o k ih =>
    cases n with
    | zero => rfl
    | succ n =>
      have hk := ih _ h n
      simp only [call_bind, fails_call, cost_call, hk, Nat.add_lt_add_iff_right,
        Nat.add_sub_add_right]

/-- An invariant of every operation, wherever the program is cut. -/
theorem runFor_only {S : Op → Prop} {I : M → Prop} (hS : ∀ o m, S o → I m → I (exec o m).2)
    {p : Prog Op Res α} (hp : p.Only S) {m : M} (hm : I m) (n : ℕ) : I (p.runFor exec n m) := by
  have hwp : p.wp exec Eq (fun m m' => I m → I m') (fun _ m' => I m') m :=
    wp_only (fun o m ho hi => ⟨fun h => hS o m ho h, hS o m ho hi⟩) hp hm
  exact wp_runFor (fun m m' h hG => hG h) hm hwp n

theorem run_only {S : Op → Prop} {I : M → Prop} (hS : ∀ o m, S o → I m → I (exec o m).2)
    {p : Prog Op Res α} (hp : p.Only S) {m m' : M} {a : α} (hm : I m)
    (h : p.run exec m = some (a, m')) : I m' := by
  obtain ⟨N, hN⟩ := runFor_of_run h
  rw [← hN N le_rfl]
  exact runFor_only hS hp hm N

/-! ## More operations -/

/-- The program among the operations of `Op` and `Op'`. -/
def inl : Prog Op Res α → Prog (Op ⊕ Op') (Sum.elim Res Res') α
  | ret a => ret a
  | call o k => call (.inl o) fun r => (k r).inl
  | abort => abort

theorem inl_call (o : Op) (k : Res o → Prog Op Res α) :
    ((call o k).inl : Prog (Op ⊕ Op') (Sum.elim Res Res') α) =
      call (.inl o) fun r => (k r).inl := rfl

variable {exec' : (o : Op ⊕ Op') → M → Sum.elim Res Res' o × M}

theorem run_inl (hexec : ∀ o m, exec' (.inl o) m = exec o m) (p : Prog Op Res α) (m : M) :
    (p.inl : Prog (Op ⊕ Op') (Sum.elim Res Res') α).run exec' m = p.run exec m := by
  induction p generalizing m with
  | ret a => rfl
  | abort => rfl
  | call o k ih =>
    simp only [inl_call, run_call, hexec]
    exact ih _ _

theorem cost_inl (hexec : ∀ o m, exec' (.inl o) m = exec o m) (p : Prog Op Res α) (m : M) :
    (p.inl : Prog (Op ⊕ Op') (Sum.elim Res Res') α).cost exec' m = p.cost exec m := by
  induction p generalizing m with
  | ret a => rfl
  | abort => rfl
  | call o k ih =>
    simp only [inl_call, cost_call, hexec]
    rw [← ih]

theorem runFor_inl (hexec : ∀ o m, exec' (.inl o) m = exec o m) (p : Prog Op Res α) (n : ℕ)
    (m : M) : (p.inl : Prog (Op ⊕ Op') (Sum.elim Res Res') α).runFor exec' n m =
      p.runFor exec n m := by
  induction p generalizing m n with
  | ret a => rw [runFor_ret]; exact runFor_ret _ _ _
  | abort => cases n <;> rfl
  | call o k ih =>
    cases n with
    | zero => rfl
    | succ n =>
      simp only [inl_call, runFor_call, hexec]
      exact ih _ _ _

end TfTree.Conc.Prog
