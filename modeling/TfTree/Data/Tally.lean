import Mathlib
import TfTree.Data.Numerals

/-!
# Tallies

An ordered map that counts how often each key was met.

* `getElem?_tally`: the count of a key.
* `total_tally`: the counts add up to the number of entries.
-/

namespace TfTree.Data

open Std

variable {κ : Type} {cmp : κ → κ → Ordering}

/-- One more of `k`. -/
def bump (t : TreeMap κ ℕ cmp) (k : κ) : TreeMap κ ℕ cmp := t.insert k (t.getD k 0 + 1)

/-- The counts of the keys of a list. -/
def tally (cmp : κ → κ → Ordering) (ks : List κ) : TreeMap κ ℕ cmp := ks.foldl bump ∅

/-- The sum of the counts. -/
def total (t : TreeMap κ ℕ cmp) : ℕ := (t.toList.map Prod.snd).sum

@[simp] theorem tally_nil : tally cmp ([] : List κ) = ∅ := rfl

theorem tally_concat (ks : List κ) (k : κ) : tally cmp (ks ++ [k]) = bump (tally cmp ks) k := by
  unfold tally
  rw [List.foldl_append]
  rfl

variable [TransCmp cmp] [LawfulEqCmp cmp] [DecidableEq κ]

theorem getElem?_bump (t : TreeMap κ ℕ cmp) (k k' : κ) :
    (bump t k)[k']? = if k = k' then some (t.getD k 0 + 1) else t[k']? := by
  unfold bump
  rw [TreeMap.getElem?_insert]
  simp only [LawfulEqCmp.compare_eq_iff_eq]

/-- The count of a key. -/
theorem getElem?_tally (ks : List κ) (k : κ) :
    (tally cmp ks)[k]? = if k ∈ ks then some (ks.countP fun k' => k' = k) else none := by
  induction ks using List.reverseRecOn with
  | nil => simp
  | append_singleton ks k' ih =>
    rw [tally_concat, getElem?_bump]
    by_cases hk : k' = k
    · subst hk
      have hcount : (tally cmp ks).getD k' 0 = ks.countP fun k => k = k' := by
        rw [TreeMap.getD_eq_getD_getElem?, ih]
        split_ifs with hmem
        · rfl
        · refine (List.countP_eq_zero.mpr fun k hk => ?_).symm
          have hne : k ≠ k' := by
            rintro rfl
            exact hmem hk
          simpa using hne
      rw [if_pos rfl, if_pos (by simp), hcount, List.countP_append]
      simp
    · rw [if_neg hk, ih]
      have hiff : k ∈ ks ++ [k'] ↔ k ∈ ks := by
        simp [Ne.symm hk]
      simp only [hiff, List.countP_append, List.countP_singleton, hk, decide_false,
        Bool.false_eq_true, if_false, Nat.add_zero]

/-- A key was not met exactly if its count is zero. -/
theorem getD_tally_eq_zero (ks : List κ) (k : κ) : (tally cmp ks).getD k 0 = 0 ↔ k ∉ ks := by
  rw [TreeMap.getD_eq_getD_getElem?, getElem?_tally]
  by_cases h : k ∈ ks
  · have hpos : 0 < ks.countP fun k' => k' = k := List.countP_pos_iff.mpr ⟨k, h, by simp⟩
    simp [h, hpos.ne']
  · simp [h]

theorem total_bump (t : TreeMap κ ℕ cmp) (k : κ) : total (bump t k) = total t + 1 := by
  have hperm : (bump t k).toList.Perm
      ((k, t.getD k 0 + 1) :: t.toList.filter (fun x => ¬(k == x.1) = true)) :=
    TreeMap.toList_insert_perm
  have hsum : total (bump t k) =
      t.getD k 0 + 1 + ((t.toList.filter (fun x => ¬(k == x.1) = true)).map Prod.snd).sum := by
    unfold total
    rw [(hperm.map Prod.snd).sum_eq, List.map_cons, List.sum_cons]
  rw [hsum]
  cases hk : t[k]? with
  | none =>
    have hnot : t.toList.filter (fun x => ¬(k == x.1) = true) = t.toList := by
      rw [List.filter_eq_self]
      intro x hx
      have hne : k ≠ x.1 := by
        rintro rfl
        have hget := TreeMap.mem_toList_iff_getElem?_eq_some.mp (show (x.1, x.2) ∈ t.toList from hx)
        rw [hk] at hget
        cases hget
      simpa using hne
    rw [hnot, TreeMap.getD_eq_getD_getElem?, hk]
    unfold total
    simp only [Option.getD_none]
    omega
  | some n =>
    -- inserting the value that is there changes nothing
    have hsame : (t.insert k n).Equiv t := by
      refine TreeMap.Equiv.of_forall_constGet?_eq fun k' => ?_
      rw [TreeMap.getElem?_insert]
      simp only [LawfulEqCmp.compare_eq_iff_eq]
      split_ifs with h
      · rw [← h, hk]
      · rfl
    have hperm' := (TreeMap.equiv_iff_toList_perm.mp hsame).symm.trans
      (TreeMap.toList_insert_perm (t := t) (k := k) (v := n))
    unfold total
    rw [(hperm'.map Prod.snd).sum_eq, List.map_cons, List.sum_cons,
      TreeMap.getD_eq_getD_getElem?, hk]
    simp only [Option.getD_some]
    omega

/-- The counts add up to the number of entries. -/
theorem total_tally (ks : List κ) : total (tally cmp ks) = ks.length := by
  induction ks using List.reverseRecOn with
  | nil => rfl
  | append_singleton ks k ih =>
    rw [tally_concat, total_bump, ih, List.length_append]
    rfl

end TfTree.Data
