import Mathlib.Data.List.Basic
import Mathlib.Data.List.Nodup
import Mathlib.Order.Basic
import Mathlib.Logic.Function.Basic
import Mathlib.Order.Lattice
import TfTree.Data.Numerals

/-!
# Stable sorts and stable merges

`SameOrder key xs ys`: two lists have the same elements of each key, in the same order.
`StableSortOf key xs ys`: moreover `ys` is in ascending order of the keys.

Results:
* `StableSortOf.unique`: a list has one stable sort.
* `stableSortOf_mergeSort`: `List.mergeSort` computes it.
* `mergeSort_eq_of_perm`: without equal keys, the order of the list does not matter.
* `SameOrder.append`, `StableSortOf.of_sameOrder`: parts may be sorted before the whole.
* `StableSortOf.merge`: taking the first of the least heads of sorted runs, over and over,
  sorts the runs.
* `StableSortOf.mem_lastOfEach`: the last of each key, out of the sorted list.
-/

namespace TfTree.Data

variable {α κ ι : Type} [LinearOrder κ] {key : α → κ} {xs ys zs : List α}

/-- The lists have the same elements of each key, in the same order. -/
def SameOrder (key : α → κ) (xs ys : List α) : Prop :=
  ∀ k, xs.filter (fun a => key a = k) = ys.filter fun a => key a = k

theorem SameOrder.refl (xs : List α) : SameOrder key xs xs := fun _ => rfl

theorem SameOrder.trans (h : SameOrder key xs ys) (h' : SameOrder key ys zs) :
    SameOrder key xs zs := fun k => (h k).trans (h' k)

/-- Where no two elements have one key, any order is the same order. -/
theorem SameOrder.of_perm (h : xs.Perm ys) (hkeys : (xs.map key).Nodup) : SameOrder key xs ys := by
  intro k
  have hperm := h.filter fun a => key a = k
  have hshort : (xs.filter fun a => key a = k).length ≤ 1 := by
    have hcount := List.nodup_iff_count_le_one.mp hkeys k
    rw [List.count_eq_countP, List.countP_map, List.countP_eq_length_filter] at hcount
    exact hcount
  generalize xs.filter (fun a => key a = k) = zs at hperm hshort
  cases zs with
  | nil => exact hperm.nil_eq
  | cons z zs =>
    obtain rfl : zs = [] := List.length_eq_zero_iff.mp (by simpa using hshort)
    exact (List.perm_singleton.mp hperm.symm).symm

theorem SameOrder.append {xs' ys' : List α} (h : SameOrder key xs ys)
    (h' : SameOrder key xs' ys') : SameOrder key (xs ++ xs') (ys ++ ys') := by
  intro k
  rw [List.filter_append, List.filter_append, h k, h' k]

/-- `ys` is `xs` sorted by `key`, and keeps the order of equal keys. -/
structure StableSortOf (key : α → κ) (xs ys : List α) : Prop where
  sorted : ys.Pairwise fun a b => key a ≤ key b
  same : SameOrder key ys xs

theorem StableSortOf.of_sameOrder (h : StableSortOf key xs zs) (hs : SameOrder key xs ys) :
    StableSortOf key ys zs := ⟨h.sorted, h.same.trans hs⟩

theorem StableSortOf.mem_iff (h : StableSortOf key xs ys) {a : α} : a ∈ ys ↔ a ∈ xs := by
  have hfilter := h.same (key a)
  have hmem : ∀ l : List α, a ∈ l ↔ a ∈ l.filter fun b => key b = key a := by
    intro l
    simp
  rw [hmem ys, hmem xs, hfilter]

/-- A list has one stable sort. -/
theorem StableSortOf.unique (hy : StableSortOf key xs ys) (hz : StableSortOf key xs zs) :
    ys = zs := by
  suffices h : ∀ ys zs : List α, (ys.Pairwise fun a b => key a ≤ key b) →
      (zs.Pairwise fun a b => key a ≤ key b) →
      (∀ k, ys.filter (fun a => key a = k) = zs.filter fun a => key a = k) → ys = zs from
    h ys zs hy.sorted hz.sorted fun k => (hy.same k).trans (hz.same k).symm
  clear hy hz
  intro ys
  induction ys with
  | nil =>
    intro zs _ _ hsame
    cases zs with
    | nil => rfl
    | cons z zs => simpa using hsame (key z)
  | cons y ys ih =>
    intro zs hys hzs hsame
    cases zs with
    | nil => simpa using hsame (key y)
    | cons z zs =>
      have hmem : ∀ a, a ∈ y :: ys ↔ a ∈ z :: zs := by
        intro a
        have hiff : a ∈ (y :: ys).filter (fun b => key b = key a) ↔
            a ∈ (z :: zs).filter fun b => key b = key a := by rw [hsame]
        simpa using hiff
      -- the two heads have one key, so they head one filtered list
      have hyz : key y ≤ key z := by
        rcases List.mem_cons.mp ((hmem z).mpr List.mem_cons_self) with rfl | hz
        · exact le_refl _
        · exact List.rel_of_pairwise_cons hys hz
      have hzy : key z ≤ key y := by
        rcases List.mem_cons.mp ((hmem y).mp List.mem_cons_self) with rfl | hy
        · exact le_refl _
        · exact List.rel_of_pairwise_cons hzs hy
      have hkey : key y = key z := le_antisymm hyz hzy
      have hheads := hsame (key z)
      rw [List.filter_cons_of_pos (by simpa using hkey),
        List.filter_cons_of_pos (by simp)] at hheads
      obtain rfl : y = z := (List.cons.inj hheads).1
      refine congrArg (y :: ·) (ih zs hys.of_cons hzs.of_cons fun k => ?_)
      have htails := hsame k
      simp only [List.filter_cons] at htails
      split at htails
      · exact (List.cons.inj htails).2
      · exact htails

/-- The comparison of keys, for `List.mergeSort`. -/
def keyLe (key : α → κ) (a b : α) : Bool := decide (key a ≤ key b)

theorem keyLe_trans (a b c : α) (hab : keyLe key a b = true) (hbc : keyLe key b c = true) :
    keyLe key a c = true := by
  simp only [keyLe, decide_eq_true_eq] at *
  exact le_trans hab hbc

theorem keyLe_total (a b : α) : (keyLe key a b || keyLe key b a) = true := by
  simpa [keyLe] using le_total (key a) (key b)

/-- The stable sort of the standard library. -/
theorem stableSortOf_mergeSort (key : α → κ) (xs : List α) :
    StableSortOf key xs (xs.mergeSort (keyLe key)) where
  sorted := by
    have h : (xs.mergeSort (keyLe key)).Pairwise fun a b => keyLe key a b = true :=
      List.pairwise_mergeSort keyLe_trans keyLe_total xs
    exact h.imp fun hab => by simpa [keyLe] using hab
  same := by
    intro k
    -- the elements of one key are a sorted sublist, which the sort keeps
    have hk : (xs.filter fun a => key a = k).Pairwise fun a b => keyLe key a b = true := by
      refine List.Pairwise.imp_of_mem (R := fun _ _ => True) (fun ha hb _ => ?_)
        (List.pairwise_of_forall fun _ _ => trivial)
      simp only [List.mem_filter, decide_eq_true_eq] at ha hb
      simp [keyLe, ha.2, hb.2]
    have hsub := (List.sublist_mergeSort keyLe_trans keyLe_total hk List.filter_sublist).filter
      fun a => decide (key a = k)
    rw [List.filter_filter] at hsub
    simp only [Bool.and_self] at hsub
    exact (hsub.eq_of_length ((List.mergeSort_perm xs _).filter _).length_eq.symm).symm

/-- Where no two elements have one key, the sorted list is the only one. -/
theorem mergeSort_eq (hkey : Function.Injective key) (h : xs.Perm ys)
    (hys : ys.Pairwise fun a b => key a ≤ key b) : xs.mergeSort (keyLe key) = ys :=
  ((List.mergeSort_perm xs (keyLe key)).trans h).eq_of_pairwise
    (fun _ _ _ _ hab hba => hkey (le_antisymm hab hba)) (stableSortOf_mergeSort key xs).sorted hys

/-- So the order of the list does not matter. -/
theorem mergeSort_eq_of_perm (hkey : Function.Injective key) (h : xs.Perm ys) :
    xs.mergeSort (keyLe key) = ys.mergeSort (keyLe key) :=
  mergeSort_eq hkey (h.trans (List.mergeSort_perm ys (keyLe key)).symm)
    (stableSortOf_mergeSort key ys).sorted

theorem stableSortOf_nil : StableSortOf key ([] : List α) [] := ⟨List.Pairwise.nil, fun _ => rfl⟩

/-- Parts that are all empty. -/
theorem stableSortOf_of_empty {rs : ι → List α} {is : List ι} (h : ∀ j ∈ is, rs j = []) :
    StableSortOf key (is.flatMap rs) [] := by
  have hnil : is.flatMap rs = [] := by
    rw [List.flatMap_eq_nil_iff]
    exact h
  rw [hnil]
  exact stableSortOf_nil

/-! ## Merging -/

section Merge

variable [LinearOrder ι] {rs : ι → List α} {is : List ι} {i : ι} {x : α} {t : List α}

/-- The run `i` has a head `x` of the least key among the heads of the runs, and no run
    before it has a head with this key. -/
structure Leads (key : α → κ) (rs : ι → List α) (is : List ι) (i : ι) (x : α) (t : List α) :
    Prop where
  head : rs i = x :: t
  least : ∀ j ∈ is, ∀ y ∈ (rs j).head?, key x ≤ key y
  first : ∀ j ∈ is, j < i → ∀ y ∈ (rs j).head?, key x < key y

/-- The first of the least heads comes first in the stable sort of the runs. -/
theorem StableSortOf.merge (his : is.Pairwise (· < ·)) (hi : i ∈ is)
    (hsorted : ∀ j ∈ is, (rs j).Pairwise fun a b => key a ≤ key b) (hlead : Leads key rs is i x t)
    (h : StableSortOf key (is.flatMap (Function.update rs i t)) zs) :
    StableSortOf key (is.flatMap rs) (x :: zs) := by
  -- a bound on the heads of the runs is a bound on all their elements
  have hall : ∀ j ∈ is, ∀ a ∈ rs j, ∃ y ∈ (rs j).head?, key y ≤ key a := by
    intro j hj a ha
    cases hr : rs j with
    | nil => rw [hr] at ha; cases ha
    | cons y ys =>
      refine ⟨y, rfl, ?_⟩
      have hpair := hsorted j hj
      rw [hr] at ha hpair
      rcases List.mem_cons.mp ha with rfl | ha
      · exact le_refl _
      · exact List.rel_of_pairwise_cons hpair ha
  obtain ⟨l₁, l₂, rfl⟩ := List.append_of_mem hi
  have hlt : ∀ j ∈ l₁, j < i := fun j hj =>
    (List.pairwise_append.mp his).2.2 j hj i List.mem_cons_self
  have hgt : ∀ j ∈ l₂, i < j := fun j hj =>
    List.rel_of_pairwise_cons (List.pairwise_append.mp his).2.1 hj
  have hrest : (l₁ ++ i :: l₂).flatMap (Function.update rs i t) =
      l₁.flatMap rs ++ (t ++ l₂.flatMap rs) := by
    rw [List.flatMap_append, List.flatMap_cons, Function.update_self]
    congr 1
    · exact List.flatMap_congr fun j hj => Function.update_of_ne (hlt j hj).ne _ _
    · congr 1
      exact List.flatMap_congr fun j hj => Function.update_of_ne (hgt j hj).ne' _ _
  have hruns : (l₁ ++ i :: l₂).flatMap rs = l₁.flatMap rs ++ (x :: t ++ l₂.flatMap rs) := by
    rw [List.flatMap_append, List.flatMap_cons, hlead.head]
  constructor
  · refine List.pairwise_cons.mpr ⟨fun z hz => ?_, h.sorted⟩
    have hz := h.mem_iff.mp hz
    rw [hrest] at hz
    have hz : z ∈ (l₁ ++ i :: l₂).flatMap rs := by
      rw [hruns]
      simp only [List.mem_append, List.mem_cons] at hz ⊢
      tauto
    obtain ⟨j, hj, hzj⟩ := List.mem_flatMap.mp hz
    obtain ⟨y, hy, hyz⟩ := hall j hj z hzj
    exact le_trans (hlead.least j hj y hy) hyz
  · intro k
    have hsame := h.same k
    rw [hrest] at hsame
    rw [hruns]
    by_cases hk : key x = k
    · -- no run before `i` has an element of this key
      have hnone : (l₁.flatMap rs).filter (fun a => key a = k) = [] := by
        rw [List.filter_eq_nil_iff]
        intro a ha
        obtain ⟨j, hj, haj⟩ := List.mem_flatMap.mp ha
        have hjs : j ∈ l₁ ++ i :: l₂ := List.mem_append_left _ hj
        obtain ⟨y, hy, hya⟩ := hall j hjs a haj
        have hxy := hlead.first j hjs (hlt j hj) y hy
        simpa [← hk] using (lt_of_lt_of_le hxy hya).ne'
      rw [List.filter_append, hnone, List.nil_append] at hsame ⊢
      rw [List.filter_cons_of_pos (by simpa using hk), hsame, List.cons_append,
        List.filter_cons_of_pos (by simpa using hk)]
    · rw [List.filter_cons_of_neg (by simpa using hk), hsame]
      simp only [List.filter_append, List.cons_append]
      rw [List.filter_cons_of_neg (by simpa using hk), List.filter_append]

end Merge

/-! ## The last of each key -/

/-- The elements that no element of the same key follows at once. -/
def lastOfEach (key : α → κ) : List α → List α
  | [] => []
  | x :: xs =>
    if xs.head?.any fun y => key y = key x then lastOfEach key xs else x :: lastOfEach key xs

theorem lastOfEach_sublist (xs : List α) : (lastOfEach key xs).Sublist xs := by
  induction xs with
  | nil => exact .slnil
  | cons x xs ih =>
    unfold lastOfEach
    split_ifs
    · exact ih.cons x
    · exact ih.cons_cons x

/-- In a sorted list, what is kept in front of another element has a smaller key. -/
theorem lt_of_kept {x : α} (h : (x :: xs).Pairwise fun a b => key a ≤ key b)
    (hkept : ¬ (xs.head?.any fun y => key y = key x) = true) : ∀ y ∈ xs, key x < key y := by
  cases xs with
  | nil => exact List.forall_mem_nil _
  | cons z zs =>
    obtain ⟨hx, hzs⟩ := List.pairwise_cons.mp h
    have hxz : key x < key z := by
      refine lt_of_le_of_ne (hx z List.mem_cons_self) fun heq => hkept ?_
      simpa using heq.symm
    intro y hy
    rcases List.mem_cons.mp hy with rfl | hy
    · exact hxz
    · exact hxz.trans_le (List.rel_of_pairwise_cons hzs hy)

theorem lastOfEach_strict (h : xs.Pairwise fun a b => key a ≤ key b) :
    (lastOfEach key xs).Pairwise fun a b => key a < key b := by
  induction xs with
  | nil => exact .nil
  | cons x xs ih =>
    unfold lastOfEach
    split_ifs with hkept
    · exact ih h.of_cons
    · have hlt := lt_of_kept h hkept
      refine List.pairwise_cons.mpr ⟨fun y hy => hlt y ?_, ih h.of_cons⟩
      exact (lastOfEach_sublist xs).subset hy

/-- In a sorted list the last element of each key is kept. -/
theorem mem_lastOfEach (h : xs.Pairwise fun a b => key a ≤ key b) {a : α} :
    a ∈ lastOfEach key xs ↔ (xs.filter fun b => key b = key a).getLast? = some a := by
  induction xs with
  | nil => simp [lastOfEach]
  | cons x xs ih =>
    have ih := ih h.of_cons
    unfold lastOfEach
    rw [List.filter_cons]
    split_ifs with hkept hx hx
    · -- the next element has the key of `x`
      rw [ih, List.getLast?_cons]
      cases xs with
      | nil => simp at hkept
      | cons z zs =>
        have hz : key z = key a := by
          have hzx : key z = key x := by simpa using hkept
          exact hzx.trans (by simpa using hx)
        rw [List.filter_cons_of_pos (by simpa using hz), List.getLast?_cons]
        simp
    · exact ih
    · have hnone : xs.filter (fun b => key b = key a) = [] := by
        refine List.filter_eq_nil_iff.mpr fun y hy => ?_
        have hlt := lt_of_kept h hkept y hy
        rw [show key x = key a by simpa using hx] at hlt
        simpa using hlt.ne'
      have hmem : a ∉ lastOfEach key xs := by
        rw [ih, hnone]
        simp
      rw [hnone, List.mem_cons, or_iff_left hmem, List.getLast?_singleton, Option.some_inj, eq_comm]
    · rw [List.mem_cons, ih, or_iff_right]
      rintro rfl
      simp at hx

/-- The last of each key is the same before and after a stable sort. -/
theorem StableSortOf.mem_lastOfEach (h : StableSortOf key xs ys) {a : α} :
    a ∈ lastOfEach key ys ↔ (xs.filter fun b => key b = key a).getLast? = some a := by
  rw [Data.mem_lastOfEach h.sorted, h.same]

end TfTree.Data
