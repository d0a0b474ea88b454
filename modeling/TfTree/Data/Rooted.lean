import Mathlib.Logic.Function.Iterate
import Mathlib.Data.Finset.Card
import Mathlib.Order.Lattice.Nat
import Mathlib.Order.Interval.Finset.Nat
import Mathlib.Tactic.Common
import TfTree.Data.Numerals

/-!
# Parent functions and their root

A function `p : α → α` with a fixed point `r` is a forest of parent links: `p x`
is the parent of `x` and `r` stands above all roots. A point is rooted when
following the links from it ends in `r`.

Results:
* `Rooted.hops_succ`: the distance to the root, one link at a time.
* `Rooted.hops_lt_card`: a walk inside a finite set repeats no point.
* `Rooted.update`, `not_rooted_update`: redirecting one link keeps every point
  rooted exactly when the walk from its new end does not come back to it.
-/

namespace TfTree

variable {α : Type} {p : α → α} {r c q x : α}

/-- Following the links from `x` ends in `r`. -/
def Rooted (p : α → α) (r x : α) : Prop := ∃ n, p^[n] x = r

/-- The number of links from `x` to `r`. -/
noncomputable def hops (p : α → α) (r x : α) : ℕ := sInf {n | p^[n] x = r}

theorem Rooted.iterate_hops (h : Rooted p r x) : p^[hops p r x] x = r := Nat.sInf_mem h

theorem hops_le {n : ℕ} (h : p^[n] x = r) : hops p r x ≤ n := Nat.sInf_le h

@[simp] theorem hops_self : hops p r r = 0 := Nat.le_zero.mp (hops_le (n := 0) rfl)

theorem Rooted.of_parent (h : Rooted p r (p x)) : Rooted p r x := by
  obtain ⟨n, hn⟩ := h
  exact ⟨n + 1, hn⟩

theorem Rooted.parent (hr : p r = r) (h : Rooted p r x) : Rooted p r (p x) := by
  obtain ⟨n, hn⟩ := h
  refine ⟨n, ?_⟩
  rw [← Function.iterate_succ_apply, Function.iterate_succ_apply', hn, hr]

theorem Rooted.hops_succ (h : Rooted p r x) (hx : x ≠ r) :
    hops p r x = hops p r (p x) + 1 := by
  have hat := h.iterate_hops
  cases hn : hops p r x with
  | zero =>
    rw [hn] at hat
    exact absurd hat hx
  | succ n =>
    rw [hn, Function.iterate_succ_apply] at hat
    have hle : hops p r (p x) ≤ n := hops_le hat
    have hge : hops p r x ≤ hops p r (p x) + 1 := by
      apply hops_le
      rw [Function.iterate_succ_apply]
      exact Rooted.iterate_hops ⟨n, hat⟩
    omega

/-- The fixed point is never left. -/
theorem iterate_root (hr : p r = r) (n : ℕ) : p^[n] r = r := Function.iterate_fixed hr n

/-- Before it ends, a walk visits no point twice. -/
theorem Rooted.iterate_inj (h : Rooted p r x) {i j : ℕ} (hij : i < j)
    (hj : j ≤ hops p r x) : p^[i] x ≠ p^[j] x := by
  intro he
  have hat := h.iterate_hops
  -- the rest of the walk from `j`, taken from `i`, ends too early
  have hshort : p^[hops p r x - j + i] x = r := by
    rw [Function.iterate_add_apply, he, ← Function.iterate_add_apply, Nat.sub_add_cancel hj, hat]
  have hle := hops_le hshort
  omega

/-- A walk inside a finite set is shorter than the set is large. -/
theorem Rooted.hops_lt_card (h : Rooted p r x) {s : Finset α} (hs : ∀ y ∈ s, p y ∈ s)
    (hx : x ∈ s) : hops p r x < s.card := by
  have hmem : ∀ n, p^[n] x ∈ s := by
    intro n
    induction n with
    | zero => exact hx
    | succ n ih =>
      rw [Function.iterate_succ_apply']
      exact hs _ ih
  by_contra hlt
  have hcard : s.card < (Finset.range (hops p r x + 1)).card := by
    rw [Finset.card_range]
    omega
  obtain ⟨i, hi, j, hj, hne, he⟩ :=
    Finset.exists_ne_map_eq_of_card_lt_of_maps_to hcard fun n _ => hmem n
  rw [Finset.mem_range] at hi hj
  rcases Nat.lt_or_gt_of_ne hne with hij | hij
  · exact h.iterate_inj hij (by omega) he
  · exact h.iterate_inj hij (by omega) he.symm

/-! ## Functions that agree inside a closed set -/

section Congr

variable {p' : α → α} {s : Set α}

theorem iterate_congr (hs : ∀ y ∈ s, p y ∈ s) (hp : ∀ y ∈ s, p' y = p y) (hx : x ∈ s) (n : ℕ) :
    p'^[n] x = p^[n] x ∧ p^[n] x ∈ s := by
  induction n with
  | zero => exact ⟨rfl, hx⟩
  | succ n ih =>
    obtain ⟨he, hmem⟩ := ih
    rw [Function.iterate_succ_apply', Function.iterate_succ_apply', he]
    exact ⟨hp _ hmem, hs _ hmem⟩

theorem Rooted.congr (hs : ∀ y ∈ s, p y ∈ s) (hp : ∀ y ∈ s, p' y = p y) (hx : x ∈ s)
    (h : Rooted p r x) : Rooted p' r x := by
  obtain ⟨n, hn⟩ := h
  exact ⟨n, by rw [(iterate_congr hs hp hx n).1, hn]⟩

theorem hops_congr (hs : ∀ y ∈ s, p y ∈ s) (hp : ∀ y ∈ s, p' y = p y) (hx : x ∈ s) :
    hops p' r x = hops p r x := by
  unfold hops
  congr 1
  ext n
  rw [Set.mem_ofPred_eq, Set.mem_ofPred_eq, (iterate_congr hs hp hx n).1]

end Congr

/-! ## Redirecting one link -/

section Update

variable [DecidableEq α]

/-- A walk that does not meet `c` does not see its new link. -/
theorem iterate_update (h : ∀ n, p^[n] x ≠ c) (n : ℕ) :
    (Function.update p c q)^[n] x = p^[n] x := by
  induction n with
  | zero => rfl
  | succ n ih =>
    rw [Function.iterate_succ_apply', Function.iterate_succ_apply', ih,
      Function.update_of_ne (h n)]

/-- If the walk from `q` does not come back to `c`, redirecting `c` to `q` keeps
    every point rooted. -/
theorem Rooted.update (hq : Rooted p r q) (hqc : ∀ n, p^[n] q ≠ c) (hx : Rooted p r x) :
    Rooted (Function.update p c q) r x := by
  have hq' : Rooted (Function.update p c q) r q := by
    obtain ⟨n, hn⟩ := hq
    exact ⟨n, by rw [iterate_update hqc, hn]⟩
  obtain ⟨n, hn⟩ := hx
  induction n generalizing x with
  | zero => exact ⟨0, hn⟩
  | succ n ih =>
    apply Rooted.of_parent
    by_cases hxc : x = c
    · rw [hxc, Function.update_self]
      exact hq'
    · rw [Function.update_of_ne hxc]
      exact ih hn

/-- If it does come back, `c` is on a cycle. -/
theorem not_rooted_update (hr : p r = r) (hc : c ≠ r) (hqc : ∃ n, p^[n] q = c) :
    ¬ Rooted (Function.update p c q) r c := by
  obtain ⟨n, hn, hmin⟩ := Nat.findX hqc
  -- the walk from `q` up to its first visit of `c` is the same after the update
  have hsame : ∀ k, k ≤ n → (Function.update p c q)^[k] q = p^[k] q := by
    intro k
    induction k with
    | zero => intro _; rfl
    | succ k ih =>
      intro hk
      rw [Function.iterate_succ_apply', Function.iterate_succ_apply', ih (by omega),
        Function.update_of_ne (hmin k (by omega))]
  have hcycle : (Function.update p c q)^[n + 1] c = c := by
    rw [Function.iterate_succ_apply, Function.update_self, hsame n le_rfl, hn]
  have hr' : Function.update p c q r = r := by rw [Function.update_of_ne (Ne.symm hc), hr]
  intro hroot
  have hfar := (hroot.iterate_inj (i := 0) (j := n + 1) (by omega))
  by_cases hle : n + 1 ≤ hops (Function.update p c q) r c
  · exact hfar hle hcycle.symm
  · -- the walk ended in `r` before it came back
    have hend := hroot.iterate_hops
    have hback : (Function.update p c q)^[n + 1] c = r := by
      have hsplit : n + 1 = (n + 1 - hops (Function.update p c q) r c) +
          hops (Function.update p c q) r c := by omega
      rw [hsplit, Function.iterate_add_apply, hend, iterate_root hr']
    exact hc (hcycle.symm.trans hback)

end Update

end TfTree
