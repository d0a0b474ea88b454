import Mathlib
import TfTree.Data.Numerals

/-!
# Entries by key

The keys of a list of entries in the order in which they are met, the entries of each key, and
counts that are kept by key.

Results:
* `firstSeen_concat`, `nodup_firstSeen`, `mem_firstSeen`: the keys grow by those that are new.
* `sumOver_addNew`: one more entry of a key that may be new.
* `sum_groups`: what is counted by key adds up.
-/

namespace TfTree.Data

variable {K X : Type} [DecidableEq K]

/-! ## The keys -/

/-- A further key, at the end if it is new. -/
def addNew (ks : List K) (k : K) : List K := if k ∈ ks then ks else ks ++ [k]

/-- The keys, each where it comes first. -/
def firstSeen (ks : List K) : List K := ks.foldl addNew []

@[simp] theorem firstSeen_nil : firstSeen ([] : List K) = [] := rfl

theorem firstSeen_concat (ks : List K) (k : K) :
    firstSeen (ks ++ [k]) = addNew (firstSeen ks) k := by
  unfold firstSeen
  rw [List.foldl_append]
  rfl

theorem mem_addNew {ks : List K} {k k' : K} : k' ∈ addNew ks k ↔ k' ∈ ks ∨ k' = k := by
  unfold addNew
  split_ifs with h
  · constructor
    · exact Or.inl
    · rintro (h' | rfl)
      · exact h'
      · exact h
  · rw [List.mem_append, List.mem_singleton]

theorem nodup_addNew {ks : List K} (h : ks.Nodup) (k : K) : (addNew ks k).Nodup := by
  unfold addNew
  split_ifs with hmem
  · exact h
  · refine List.nodup_append.mpr ⟨h, List.nodup_singleton k, fun a ha b hb => ?_⟩
    rw [List.mem_singleton.mp hb]
    rintro rfl
    exact hmem ha

@[simp] theorem mem_firstSeen {ks : List K} {k : K} : k ∈ firstSeen ks ↔ k ∈ ks := by
  induction ks using List.reverseRecOn with
  | nil => rfl
  | append_singleton ks k' ih =>
    rw [firstSeen_concat, mem_addNew, ih, List.mem_append, List.mem_singleton]

theorem nodup_firstSeen (ks : List K) : (firstSeen ks).Nodup := by
  induction ks using List.reverseRecOn with
  | nil => exact List.nodup_nil
  | append_singleton ks k ih =>
    rw [firstSeen_concat]
    exact nodup_addNew ih k

/-- The same keys are met, in whatever order. -/
theorem firstSeen_perm {ks ks' : List K} (h : ks.Perm ks') :
    (firstSeen ks).Perm (firstSeen ks') := by
  refine (List.perm_ext_iff_of_nodup (nodup_firstSeen ks) (nodup_firstSeen ks')).mpr fun k => ?_
  rw [mem_firstSeen, mem_firstSeen, h.mem_iff]

/-! ## The entries of a key -/

/-- The entries of the key `k`. -/
def groupOf (key : X → K) (xs : List X) (k : K) : List X := xs.filter fun x => key x = k

section Group

variable {key : X → K} {xs ys : List X} {x : X} {k : K}

@[simp] theorem mem_groupOf : x ∈ groupOf key xs k ↔ x ∈ xs ∧ key x = k := by
  simp [groupOf]

theorem groupOf_append : groupOf key (xs ++ ys) k = groupOf key xs k ++ groupOf key ys k :=
  List.filter_append ..

theorem groupOf_concat :
    groupOf key (xs ++ [x]) k = groupOf key xs k ++ if key x = k then [x] else [] := by
  rw [groupOf_append]
  congr 1
  unfold groupOf
  by_cases h : key x = k
  · rw [List.filter_cons_of_pos (by simpa using h), if_pos h]
    rfl
  · rw [List.filter_cons_of_neg (by simpa using h), if_neg h]
    rfl

theorem groupOf_ne_nil : groupOf key xs k ≠ [] ↔ k ∈ xs.map key := by
  rw [List.ne_nil_iff_exists_cons, List.mem_map]
  constructor
  · rintro ⟨x, rest, h⟩
    obtain ⟨hx, rfl⟩ := mem_groupOf.mp (h ▸ List.mem_cons_self : x ∈ groupOf key xs k)
    exact ⟨x, hx, rfl⟩
  · rintro ⟨x, hx, rfl⟩
    exact List.exists_cons_of_ne_nil (List.ne_nil_of_mem (mem_groupOf.mpr ⟨hx, rfl⟩))

end Group

/-! ## Sums over the keys -/

section Sums

/-- The sum of a count over the keys. -/
def sumOver (ks : List K) (n : K → ℕ) : ℕ := (ks.map n).sum

theorem sumOver_update {ks : List K} (hks : ks.Nodup) {k : K} (hk : k ∈ ks) (n : K → ℕ) (v : ℕ) :
    sumOver ks (Function.update n k v) + n k = sumOver ks n + v := by
  induction ks with
  | nil => cases hk
  | cons k' ks ih =>
    obtain ⟨hnew, hks⟩ := List.nodup_cons.mp hks
    unfold sumOver at ih ⊢
    rw [List.map_cons, List.map_cons, List.sum_cons, List.sum_cons]
    by_cases h : k' = k
    · subst h
      have hsame : ks.map (Function.update n k' v) = ks.map n := by
        refine List.map_congr_left fun a ha => Function.update_of_ne ?_ _ _
        rintro rfl
        exact hnew ha
      rw [hsame, Function.update_self]
      omega
    · have hrest := ih hks ((List.mem_cons.mp hk).resolve_left (Ne.symm h))
      rw [Function.update_of_ne h]
      omega

/-- The sum with a new count of a key that may be new. -/
theorem sumOver_addNew {ks : List K} (hks : ks.Nodup) {k : K} {n : K → ℕ}
    (hnew : k ∉ ks → n k = 0) (v : ℕ) :
    sumOver (addNew ks k) (Function.update n k v) + n k = sumOver ks n + v := by
  have hsum := sumOver_update (nodup_addNew hks k) (mem_addNew.mpr (.inr rfl)) n v
  have hadd : sumOver (addNew ks k) n = sumOver ks n := by
    unfold addNew
    split_ifs with h
    · rfl
    · unfold sumOver
      rw [List.map_append, List.sum_append, List.map_singleton, List.sum_singleton, hnew h]
      rfl
  rw [hsum, hadd]

/-- The entries with a property, counted key by key. -/
theorem sum_groups (key : X → K) (xs : List X) (p : X → Bool) :
    sumOver (firstSeen (xs.map key)) (fun k => (groupOf key xs k).countP p) = xs.countP p := by
  have hgroups : ∀ (ks : List K), ks.Nodup → (∀ x ∈ xs, key x ∈ ks) →
      sumOver ks (fun k => (groupOf key xs k).countP p) = xs.countP p := by
    induction xs with
    | nil =>
      intro ks _ _
      simp [sumOver, groupOf]
    | cons x xs ih =>
      intro ks hks hmem
      have hrest := ih ks hks fun y hy => hmem y (List.mem_cons_of_mem x hy)
      have hcount : (fun k => (groupOf key (x :: xs) k).countP p) =
          Function.update (fun k => (groupOf key xs k).countP p) (key x)
            ((groupOf key xs (key x)).countP p + if p x then 1 else 0) := by
        funext k
        unfold groupOf
        by_cases hk : key x = k
        · subst hk
          rw [Function.update_self, List.filter_cons_of_pos (by simp), List.countP_cons]
        · rw [Function.update_of_ne (Ne.symm hk), List.filter_cons_of_neg (by simpa using hk)]
      have hsum := sumOver_update hks (hmem x List.mem_cons_self)
        (fun k => (groupOf key xs k).countP p)
        ((groupOf key xs (key x)).countP p + if p x then 1 else 0)
      rw [hcount, List.countP_cons]
      omega
  exact hgroups _ (nodup_firstSeen _) fun x hx => by
    rw [mem_firstSeen]
    exact List.mem_map_of_mem hx

end Sums

end TfTree.Data
