import Mathlib
import TfTree.Data.Rooted
import TfTree.Data.Tally
import TfTree.Doctor.Snapshot

/-!
# The shape of a captured topology

`tf_tree_cli/src/doctor.rs`: the checks for parent cycles and for frames outside the main tree,
on a snapshot whose parent links may be anything.

Results:
* `Snapshot.Distinct.hops_up_le`: a parent chain that ends, ends within the budget of the walks.
* `check_cycles_lists`: the check for cycles lists the frames whose chain never ends.
* `check_unreachable_lists`: without any, the other check lists the frames outside a largest tree.
-/

namespace TfTree.Doctor

open Data

/-! ## Model of `doctor.rs` -/

namespace Snapshot

/-- `max_id`. -/
def maxId (snap : Snapshot) : ℕ := (snap.frames.map FrameInfo.id).foldl max 0

/-- A vector with an entry for each id, set from the frames one after the other. -/
def table {α : Type} (snap : Snapshot) (initial : α) (entry : FrameInfo → α) : List α :=
  snap.frames.foldl (fun v f => v.set f.id (entry f)) (List.replicate (snap.maxId + 1) initial)

/-- `parent.get(cur).copied().unwrap_or(0)`. -/
def parentOf (snap : Snapshot) (cur : ℕ) : ℕ := ((snap.table 0 FrameInfo.parent)[cur]?).getD 0

/-- `present.get(p).copied().unwrap_or(false)`. -/
def isPresent (snap : Snapshot) (p : ℕ) : Bool := ((snap.table false fun _ => true)[p]?).getD false

/-- `budget`. -/
def budget (snap : Snapshot) : ℕ := snap.frames.length + 1

/-- The inner loop of `check_cycles` (lines 510–517): whether the walk reached a root. -/
def reachesRoot (snap : Snapshot) : ℕ → ℕ → Bool
  | 0, _ => false
  | n + 1, cur =>
    let p := snap.parentOf cur
    if p = 0 then true else snap.reachesRoot n p

/-- `root_of` of `check_unreachable` (lines 696–705). -/
def rootOf (snap : Snapshot) : ℕ → ℕ → ℕ
  | 0, cur => cur
  | n + 1, cur =>
    let p := snap.parentOf cur
    if p = 0 ∨ snap.isPresent p = false then cur else snap.rootOf n p

end Snapshot

/-- The report of the frames `inCycle` (lines 523–536). -/
def cycleFindings (snap : Snapshot) (inCycle : List ℕ) : List Finding :=
  if inCycle = [] then []
  else
    let names := inCycle.map snap.frameLabel
    [⟨.cycle, .error, s!"{names.length} frame(s) sit on a parent cycle (never reach a root): " ++
      ", ".intercalate names⟩]

/-- `check_cycles` (lines 498–537). A `BTreeSet` is its members in order. -/
def checkCycles (snap : Snapshot) : List Finding :=
  let trapped := snap.frames.filter fun f => !snap.reachesRoot snap.budget f.id
  cycleFindings snap ((trapped.map FrameInfo.id).toFinset.sort (· ≤ ·))

/-- `Iterator::max_by_key` on the second component: the last of the largest. -/
def maxBySize : List (ℕ × ℕ) → Option (ℕ × ℕ)
  | [] => none
  | x :: xs => some (xs.foldl (fun best y => if best.2 ≤ y.2 then y else best) x)

/-- The report of the frames outside the tree of `mainRoot` (lines 723–731). -/
def unreachableFindings (snap : Snapshot) (mainRoot : ℕ) (outside : List FrameInfo) :
    List Finding :=
  if outside = [] then []
  else
    [⟨.unreachable, .error, s!"{outside.length} frame(s) unreachable from the main root '" ++
      snap.frameLabel mainRoot ++ "': " ++ ", ".intercalate (outside.map FrameInfo.name)⟩]

/-- `check_unreachable` (lines 681–732). -/
def checkUnreachable (snap : Snapshot) : List Finding :=
  let sizes := tally compare (snap.frames.map fun f => snap.rootOf snap.budget f.id)
  match maxBySize sizes.toList with
  | none => []
  | some (mainRoot, _) =>
    unreachableFindings snap mainRoot
      (snap.frames.filter fun f => snap.rootOf snap.budget f.id ≠ mainRoot)

/-! ## What a snapshot says -/

namespace Snapshot

/-- A frame of the snapshot has this id. -/
def Has (snap : Snapshot) (id : ℕ) : Prop := id ∈ snap.frames.map FrameInfo.id

/-- The parent chain reaches a root or a frame outside the snapshot. -/
inductive Ends (snap : Snapshot) : ℕ → Prop
  | root {f : FrameInfo} (hf : f ∈ snap.frames) (hp : f.parent = 0) : Ends snap f.id
  | outside {id : ℕ} (h : ¬ snap.Has id) : Ends snap id
  | step {f : FrameInfo} (hf : f ∈ snap.frames) (h : Ends snap f.parent) : Ends snap f.id

/-- The frame `id` is in the tree of `r`, whose parent is no frame of the snapshot. -/
inductive RootOf (snap : Snapshot) : ℕ → ℕ → Prop
  | root {f : FrameInfo} (hf : f ∈ snap.frames) (hp : f.parent = 0 ∨ ¬ snap.Has f.parent) :
      RootOf snap f.id f.id
  | step {f : FrameInfo} {r : ℕ} (hf : f ∈ snap.frames) (hp : f.parent ≠ 0)
      (h : RootOf snap f.parent r) : RootOf snap f.id r

open scoped Classical in
/-- The number of frames in the tree of `r`. -/
noncomputable def treeSize (snap : Snapshot) (r : ℕ) : ℕ :=
  snap.frames.countP fun f => snap.RootOf f.id r

/-- Ids are distinct, and zero stands for no parent. -/
structure Distinct (snap : Snapshot) : Prop where
  nodup : (snap.frames.map FrameInfo.id).Nodup
  ne_zero : ∀ f ∈ snap.frames, f.id ≠ 0

theorem has_of_mem {snap : Snapshot} {f : FrameInfo} (hf : f ∈ snap.frames) : snap.Has f.id :=
  List.mem_map_of_mem hf

theorem Has.exists_frame {snap : Snapshot} {id : ℕ} (h : snap.Has id) :
    ∃ f ∈ snap.frames, f.id = id := List.mem_map.mp h

theorem Has.le_maxId {snap : Snapshot} {id : ℕ} (h : snap.Has id) : id ≤ snap.maxId := by
  unfold maxId
  rw [List.foldl_eq_foldr]
  exact List.le_max_of_le' 0 h le_rfl

/-! ## The tables of the checks -/

section Table

variable {α : Type} {entry : FrameInfo → α}

theorem getElem?_foldl_set_of_notMem (fs : List FrameInfo) (v : List α) {x : ℕ}
    (hx : x ∉ fs.map FrameInfo.id) :
    (fs.foldl (fun v f => v.set f.id (entry f)) v)[x]? = v[x]? := by
  induction fs generalizing v with
  | nil => rfl
  | cons f fs ih =>
    simp only [List.map_cons, List.mem_cons, not_or] at hx
    rw [List.foldl_cons, ih _ hx.2, List.getElem?_set_ne (Ne.symm hx.1)]

/-- With distinct ids, no entry is written over. -/
theorem getElem?_foldl_set_of_mem {fs : List FrameInfo} (hfs : (fs.map FrameInfo.id).Nodup)
    (v : List α) {f : FrameInfo} (hf : f ∈ fs) (hv : ∀ f ∈ fs, f.id < v.length) :
    (fs.foldl (fun v f => v.set f.id (entry f)) v)[f.id]? = some (entry f) := by
  induction fs generalizing v with
  | nil => simp at hf
  | cons g fs ih =>
    simp only [List.map_cons, List.nodup_cons] at hfs
    rw [List.foldl_cons]
    rcases List.mem_cons.mp hf with rfl | hf
    · rw [getElem?_foldl_set_of_notMem _ _ hfs.1, List.getElem?_set_self (hv f (by simp))]
    · refine ih hfs.2 _ hf fun h hh => ?_
      rw [List.length_set]
      exact hv h (by simp [hh])

end Table

variable {snap : Snapshot} {id r : ℕ} {f : FrameInfo}

theorem Distinct.table_mem (hs : snap.Distinct) {α : Type} {initial : α}
    {entry : FrameInfo → α} (hf : f ∈ snap.frames) :
    (snap.table initial entry)[f.id]? = some (entry f) := by
  apply getElem?_foldl_set_of_mem hs.nodup _ hf
  intro g hg
  have hle := (has_of_mem hg).le_maxId
  simp only [List.length_replicate]
  omega

theorem table_not_has {α : Type} {initial : α} {entry : FrameInfo → α} (h : ¬ snap.Has id) :
    ((snap.table initial entry)[id]?).getD initial = initial := by
  unfold table
  rw [getElem?_foldl_set_of_notMem _ _ h, List.getElem?_replicate]
  split_ifs <;> rfl

theorem Distinct.parentOf_mem (hs : snap.Distinct) (hf : f ∈ snap.frames) :
    snap.parentOf f.id = f.parent := by
  simp [parentOf, hs.table_mem hf]

theorem parentOf_not_has (h : ¬ snap.Has id) : snap.parentOf id = 0 := table_not_has h

theorem Distinct.isPresent_iff (hs : snap.Distinct) : snap.isPresent id = true ↔ snap.Has id := by
  by_cases h : snap.Has id
  · obtain ⟨f, hf, rfl⟩ := h.exists_frame
    simp [isPresent, hs.table_mem hf, h]
  · simp [isPresent, table_not_has h, h]

theorem Distinct.not_has_zero (hs : snap.Distinct) : ¬ snap.Has 0 := by
  intro h
  obtain ⟨f, hf, h0⟩ := h.exists_frame
  exact hs.ne_zero f hf h0

theorem Distinct.parentOf_zero (hs : snap.Distinct) : snap.parentOf 0 = 0 :=
  parentOf_not_has hs.not_has_zero

/-! ## Walks inside the snapshot -/

/-- The parent, as long as it is a frame of the snapshot. -/
def up (snap : Snapshot) (id : ℕ) : ℕ :=
  if snap.isPresent (snap.parentOf id) then snap.parentOf id else 0

theorem Distinct.up_zero (hs : snap.Distinct) : snap.up 0 = 0 := by
  simp [up, hs.parentOf_zero]

theorem Distinct.up_of_has (hs : snap.Distinct) (h : snap.Has (snap.parentOf id)) :
    snap.up id = snap.parentOf id := by
  simp [up, hs.isPresent_iff.mpr h]

theorem Distinct.up_of_not_has (hs : snap.Distinct) (h : ¬ snap.Has (snap.parentOf id)) :
    snap.up id = 0 := by
  simp [up, mt hs.isPresent_iff.mp h]

theorem Distinct.rooted_of_ends (hs : snap.Distinct) (h : snap.Ends id) (hid : snap.Has id) :
    Rooted snap.up 0 id := by
  induction h with
  | outside h => exact absurd hid h
  | @root f hf hp =>
    refine ⟨1, hs.up_of_not_has ?_⟩
    rw [hs.parentOf_mem hf, hp]
    exact hs.not_has_zero
  | @step f hf h ih =>
    by_cases hp : snap.Has f.parent
    · apply Rooted.of_parent
      rw [hs.up_of_has (by rwa [hs.parentOf_mem hf]), hs.parentOf_mem hf]
      exact ih hp
    · exact ⟨1, hs.up_of_not_has (by rwa [hs.parentOf_mem hf])⟩

/-- A chain inside the snapshot repeats no frame, so it has no more links than there are frames. -/
theorem Distinct.hops_up_le (hs : snap.Distinct) (h : Rooted snap.up 0 id) (hid : snap.Has id) :
    hops snap.up 0 id ≤ snap.frames.length := by
  have hclosed : ∀ y ∈ insert 0 (snap.frames.map FrameInfo.id).toFinset,
      snap.up y ∈ insert 0 (snap.frames.map FrameInfo.id).toFinset := by
    intro y _
    by_cases hy : snap.Has (snap.parentOf y)
    · rw [hs.up_of_has hy]
      exact Finset.mem_insert_of_mem (List.mem_toFinset.mpr hy)
    · rw [hs.up_of_not_has hy]
      exact Finset.mem_insert_self _ _
  have hlt := h.hops_lt_card hclosed (Finset.mem_insert_of_mem (List.mem_toFinset.mpr hid))
  have hcard := Finset.card_insert_le 0 (snap.frames.map FrameInfo.id).toFinset
  rw [List.toFinset_card_of_nodup hs.nodup, List.length_map] at hcard
  omega

/-! ## The check for cycles -/

theorem Distinct.iterate_parentOf (hs : snap.Distinct) {n : ℕ} (h : snap.up^[n] id = 0) :
    snap.parentOf^[n + 1] id = 0 := by
  induction n generalizing id with
  | zero =>
    obtain rfl : id = 0 := h
    exact hs.parentOf_zero
  | succ n ih =>
    rw [Function.iterate_succ_apply] at h ⊢
    by_cases hp : snap.Has (snap.parentOf id)
    · rw [hs.up_of_has hp] at h
      exact ih h
    · rw [Function.iterate_succ_apply, parentOf_not_has hp]
      exact iterate_root hs.parentOf_zero n

/-- The loop follows at most as many links as its budget has. -/
theorem Distinct.reachesRoot_iff (hs : snap.Distinct) (n : ℕ) :
    snap.reachesRoot (n + 1) id = true ↔ snap.parentOf^[n + 1] id = 0 := by
  induction n generalizing id with
  | zero => simp [reachesRoot]
  | succ n ih =>
    rw [reachesRoot, Function.iterate_succ_apply]
    by_cases hp : snap.parentOf id = 0
    · simp [hp, iterate_root hs.parentOf_zero]
    · simp [hp, ih]

theorem Distinct.ends_of_iterate (hs : snap.Distinct) {n : ℕ} (h : snap.parentOf^[n] id = 0) :
    snap.Ends id := by
  induction n generalizing id with
  | zero =>
    obtain rfl : id = 0 := h
    exact .outside hs.not_has_zero
  | succ n ih =>
    rw [Function.iterate_succ_apply] at h
    by_cases hid : snap.Has id
    · obtain ⟨f, hf, rfl⟩ := hid.exists_frame
      rw [hs.parentOf_mem hf] at h
      exact .step hf (ih h)
    · exact .outside hid

/-- The budget is enough: a chain that ends, ends within it. -/
theorem Distinct.reachesRoot_budget (hs : snap.Distinct) (hid : snap.Has id) :
    snap.reachesRoot snap.budget id = true ↔ snap.Ends id := by
  unfold budget
  rw [hs.reachesRoot_iff]
  constructor
  · exact hs.ends_of_iterate
  · intro h
    have hroot := hs.rooted_of_ends h hid
    have hle := hs.hops_up_le hroot hid
    apply hs.iterate_parentOf
    have hsplit : snap.frames.length =
        (snap.frames.length - hops snap.up 0 id) + hops snap.up 0 id := by omega
    rw [hsplit, Function.iterate_add_apply, hroot.iterate_hops]
    exact iterate_root hs.up_zero _

/-! ## The trees -/

theorem RootOf.has (h : snap.RootOf id r) : snap.Has id := by
  cases h with
  | root hf hp => exact has_of_mem hf
  | step hf hp h => exact has_of_mem hf

theorem RootOf.ends (h : snap.RootOf id r) : snap.Ends id := by
  induction h with
  | root hf hp =>
    rcases hp with hp | hp
    · exact .root hf hp
    · exact .step hf (.outside hp)
  | step hf hp h ih => exact .step hf ih

theorem RootOf.root_self (h : snap.RootOf id r) : snap.RootOf r r := by
  induction h with
  | root hf hp => exact .root hf hp
  | step hf hp h ih => exact ih

theorem Distinct.exists_rootOf (hs : snap.Distinct) (h : snap.Ends id) (hid : snap.Has id) :
    ∃ r, snap.RootOf id r := by
  induction h with
  | outside h => exact absurd hid h
  | @root f hf hp => exact ⟨f.id, .root hf (.inl hp)⟩
  | @step f hf h ih =>
    by_cases hp : snap.Has f.parent
    · obtain ⟨r, hr⟩ := ih hp
      refine ⟨r, .step hf ?_ hr⟩
      intro h0
      rw [h0] at hp
      exact hs.not_has_zero hp
    · exact ⟨f.id, .root hf (.inr hp)⟩

/-- The walk ends at the root when its budget has a link for each one of the chain. -/
theorem Distinct.rootOf_eq (hs : snap.Distinct) (h : snap.RootOf id r) {n : ℕ}
    (hn : hops snap.up 0 id ≤ n) : snap.rootOf n id = r := by
  induction h generalizing n with
  | @root f hf hp =>
    cases n with
    | zero => rfl
    | succ n =>
      have hstop : f.parent = 0 ∨ snap.isPresent f.parent = false := by
        rcases hp with hp | hp
        · exact .inl hp
        · exact .inr (by simpa using mt hs.isPresent_iff.mp hp)
      simp only [rootOf, hs.parentOf_mem hf]
      rw [if_pos hstop]
  | @step f r hf hp h ih =>
    have hparent : snap.Has (snap.parentOf f.id) := by
      rw [hs.parentOf_mem hf]
      exact h.has
    have hup : snap.up f.id = f.parent := by rw [hs.up_of_has hparent, hs.parentOf_mem hf]
    have hhops := (hs.rooted_of_ends (.step hf h.ends) (has_of_mem hf)).hops_succ (hs.ne_zero f hf)
    rw [hup] at hhops
    cases n with
    | zero => omega
    | succ n =>
      have hgo : ¬ (f.parent = 0 ∨ snap.isPresent f.parent = false) := by
        simp [hp, hs.isPresent_iff.mpr h.has]
      simp only [rootOf, hs.parentOf_mem hf]
      rw [if_neg hgo]
      exact ih (by omega)

theorem Distinct.rootOf_budget_of_rootOf (hs : snap.Distinct) (h : snap.RootOf id r) :
    snap.rootOf snap.budget id = r := by
  apply hs.rootOf_eq h
  have hle := hs.hops_up_le (hs.rooted_of_ends h.ends h.has) h.has
  unfold budget
  omega

theorem Distinct.rootOf_budget_iff (hs : snap.Distinct) (hid : snap.Has id) (h : snap.Ends id) :
    snap.rootOf snap.budget id = r ↔ snap.RootOf id r := by
  constructor
  · rintro rfl
    obtain ⟨r, hr⟩ := hs.exists_rootOf h hid
    rwa [hs.rootOf_budget_of_rootOf hr]
  · exact hs.rootOf_budget_of_rootOf

/-- When every chain ends, the walks count the trees. -/
theorem Distinct.treeSize_eq (hs : snap.Distinct) (h : ∀ f ∈ snap.frames, snap.Ends f.id) (r : ℕ) :
    snap.treeSize r =
      (snap.frames.map fun f => snap.rootOf snap.budget f.id).countP fun r' => r' = r := by
  classical
  unfold treeSize
  rw [List.countP_map]
  apply List.countP_congr
  intro f hf
  simp [hs.rootOf_budget_iff (has_of_mem hf) (h f hf)]

end Snapshot

/-! ## The findings -/

open Snapshot Std

variable {snap : Snapshot}

theorem foldl_later_spec (xs : List (ℕ × ℕ)) (x : ℕ × ℕ) :
    xs.foldl (fun best y => if best.2 ≤ y.2 then y else best) x ∈ x :: xs ∧
      ∀ y ∈ x :: xs,
        y.2 ≤ (xs.foldl (fun best y => if best.2 ≤ y.2 then y else best) x).2 := by
  induction xs generalizing x with
  | nil => simp
  | cons z xs ih =>
    obtain ⟨hmem, hmax⟩ := ih (if x.2 ≤ z.2 then z else x)
    rw [List.foldl_cons]
    refine ⟨?_, ?_⟩
    · split_ifs at hmem ⊢ <;> grind
    · intro y hy
      have hhead := hmax _ List.mem_cons_self
      rcases List.mem_cons.mp hy with rfl | hy
      · split_ifs at hhead ⊢ <;> omega
      · rcases List.mem_cons.mp hy with rfl | hy
        · split_ifs at hhead ⊢ <;> omega
        · exact hmax y (by simp [hy])

theorem maxBySize_spec {xs : List (ℕ × ℕ)} {x : ℕ × ℕ} (h : maxBySize xs = some x) :
    x ∈ xs ∧ ∀ y ∈ xs, y.2 ≤ x.2 := by
  cases xs with
  | nil => simp [maxBySize] at h
  | cons z xs =>
    simp only [maxBySize, Option.some.injEq] at h
    subst h
    exact foldl_later_spec xs z

/-- The most frequent key of a tally. -/
theorem maxBySize_tally {ks : List ℕ} (hks : ks ≠ []) :
    ∃ k ∈ ks, maxBySize (tally compare ks).toList = some (k, ks.countP fun k' => k' = k) ∧
      ∀ k', (ks.countP fun x => x = k') ≤ ks.countP fun x => x = k := by
  have hcount : ∀ k n, (k, n) ∈ (tally compare ks).toList ↔
      k ∈ ks ∧ n = ks.countP fun k' => k' = k := by
    intro k n
    rw [TreeMap.mem_toList_iff_getElem?_eq_some, getElem?_tally]
    split_ifs with hk <;> simp [hk, eq_comm]
  cases hbest : maxBySize (tally compare ks).toList with
  | none =>
    obtain ⟨k, hk⟩ := List.exists_mem_of_ne_nil ks hks
    have hmem := (hcount k _).mpr ⟨hk, rfl⟩
    cases htally : (tally compare ks).toList with
    | nil => simp [htally] at hmem
    | cons x xs => simp [htally, maxBySize] at hbest
  | some best =>
    obtain ⟨hmem, hmax⟩ := maxBySize_spec hbest
    obtain ⟨k, n⟩ := best
    obtain ⟨hk, rfl⟩ := (hcount k n).mp hmem
    refine ⟨k, hk, rfl, fun k' => ?_⟩
    by_cases hk' : k' ∈ ks
    · exact hmax _ ((hcount k' _).mpr ⟨hk', rfl⟩)
    · have hzero : (ks.countP fun x => x = k') = 0 := by
        rw [List.countP_eq_zero]
        intro x hx hxk
        rw [decide_eq_true_eq] at hxk
        exact hk' (hxk ▸ hx)
      omega

/-- The frames whose parent chain never ends, in the order of their ids. -/
theorem check_cycles_lists (hs : snap.Distinct) :
    ∃ ids : List ℕ, ids.Pairwise (· < ·) ∧ (∀ id, id ∈ ids ↔ snap.Has id ∧ ¬ snap.Ends id) ∧
      checkCycles snap = cycleFindings snap ids := by
  refine ⟨_, Finset.sortedLT_sort _ |>.pairwise, fun id => ?_, rfl⟩
  rw [Finset.mem_sort, List.mem_toFinset, List.mem_map]
  constructor
  · rintro ⟨f, hf, rfl⟩
    obtain ⟨hf, hloop⟩ := List.mem_filter.mp hf
    have hid := has_of_mem hf
    rw [Bool.not_eq_true', ← Bool.not_eq_true, hs.reachesRoot_budget hid] at hloop
    exact ⟨hid, hloop⟩
  · rintro ⟨hid, hloop⟩
    obtain ⟨f, hf, rfl⟩ := hid.exists_frame
    refine ⟨f, List.mem_filter.mpr ⟨hf, ?_⟩, rfl⟩
    rw [Bool.not_eq_true', ← Bool.not_eq_true, hs.reachesRoot_budget hid]
    exact hloop

theorem cycleFindings_eq_nil {ids : List ℕ} : cycleFindings snap ids = [] ↔ ids = [] := by
  unfold cycleFindings
  split_ifs with h <;> simp [h]

/-- Without cycles, the frames outside one of the largest trees. -/
theorem check_unreachable_lists (hs : snap.Distinct) (h : ∀ f ∈ snap.frames, snap.Ends f.id) :
    ∃ (mainRoot : ℕ) (outside : List FrameInfo),
      (snap.frames ≠ [] → snap.RootOf mainRoot mainRoot) ∧
      (∀ r, snap.treeSize r ≤ snap.treeSize mainRoot) ∧
      outside.Sublist snap.frames ∧
      (∀ f ∈ snap.frames, f ∈ outside ↔ ¬ snap.RootOf f.id mainRoot) ∧
      checkUnreachable snap = unreachableFindings snap mainRoot outside := by
  by_cases hempty : snap.frames = []
  · refine ⟨0, [], by simp [hempty], by simp [treeSize, hempty], by simp [hempty],
      by simp [hempty], ?_⟩
    have hnone : maxBySize (tally compare ([] : List ℕ)).toList = none := rfl
    simp only [checkUnreachable, hempty, List.map_nil, hnone]
    rfl
  have hne : (snap.frames.map fun f => snap.rootOf snap.budget f.id) ≠ [] := by simpa
  obtain ⟨mainRoot, hmem, hbest, hmax⟩ := maxBySize_tally hne
  obtain ⟨f, hf, hroot⟩ := List.mem_map.mp hmem
  have hself := ((hs.rootOf_budget_iff (has_of_mem hf) (h f hf)).mp hroot).root_self
  refine ⟨mainRoot, snap.frames.filter fun f => snap.rootOf snap.budget f.id ≠ mainRoot,
    fun _ => hself, fun r => ?_, List.filter_sublist, fun f hf => ?_, ?_⟩
  · rw [hs.treeSize_eq h, hs.treeSize_eq h]
    exact hmax r
  · simp [hf, hs.rootOf_budget_iff (has_of_mem hf) (h f hf)]
  · unfold checkUnreachable
    simp only [hbest]

/-- The check for cycles lists exactly the frames on a chain without end; when it lists none, the
    check for unreachable frames lists exactly those outside one of the largest trees. -/
theorem topology_checks_list (hids : (snap.frames.map FrameInfo.id).Nodup)
    (hpos : ∀ f ∈ snap.frames, f.id ≠ 0) :
    (∃ ids : List ℕ, ids.Pairwise (· < ·) ∧ (∀ id, id ∈ ids ↔ snap.Has id ∧ ¬ snap.Ends id) ∧
      checkCycles snap = cycleFindings snap ids) ∧
    (checkCycles snap = [] →
      ∃ (mainRoot : ℕ) (outside : List FrameInfo),
        (snap.frames ≠ [] → snap.RootOf mainRoot mainRoot) ∧
        (∀ r, snap.treeSize r ≤ snap.treeSize mainRoot) ∧
        outside.Sublist snap.frames ∧
        (∀ f ∈ snap.frames, f ∈ outside ↔ ¬ snap.RootOf f.id mainRoot) ∧
        checkUnreachable snap = unreachableFindings snap mainRoot outside) := by
  have hs : snap.Distinct := ⟨hids, hpos⟩
  refine ⟨check_cycles_lists hs, fun hnone => check_unreachable_lists hs fun f hf => ?_⟩
  obtain ⟨ids, -, hmem, hcheck⟩ := check_cycles_lists hs
  rw [hcheck, cycleFindings_eq_nil] at hnone
  by_contra hloop
  have hin := (hmem f.id).mpr ⟨has_of_mem hf, hloop⟩
  simp [hnone] at hin

/-- A tail into a cycle, a frame below a missing one and a root; and a forest of a root with a
child and a frame below a missing one. -/
theorem topology_checks_list_mixed :
    let snap : Snapshot :=
      ⟨[⟨1, "a", 2⟩, ⟨2, "b", 3⟩, ⟨3, "c", 2⟩, ⟨4, "d", 9⟩, ⟨5, "e", 0⟩, ⟨6, "f", 5⟩], []⟩
    let forest : Snapshot := ⟨[⟨1, "a", 0⟩, ⟨2, "b", 1⟩, ⟨3, "c", 9⟩], []⟩
    (∃ ids : List ℕ, ids.Pairwise (· < ·) ∧ (∀ id, id ∈ ids ↔ snap.Has id ∧ ¬ snap.Ends id) ∧
      checkCycles snap = cycleFindings snap ids) ∧
    checkUnreachable forest =
      [⟨.unreachable, .error, "1 frame(s) unreachable from the main root 'a': c"⟩] ∧
    ∃ (mainRoot : ℕ) (outside : List FrameInfo), forest.RootOf mainRoot mainRoot ∧
      (∀ r, forest.treeSize r ≤ forest.treeSize mainRoot) ∧ outside.Sublist forest.frames ∧
      (∀ f ∈ forest.frames, f ∈ outside ↔ ¬ forest.RootOf f.id mainRoot) ∧
      checkUnreachable forest = unreachableFindings forest mainRoot outside := by
  intro snap forest
  have hids : (snap.frames.map FrameInfo.id).Nodup := by decide
  have hpos : ∀ f ∈ snap.frames, f.id ≠ 0 := by decide
  have hids' : (forest.frames.map FrameInfo.id).Nodup := by decide
  have hpos' : ∀ f ∈ forest.frames, f.id ≠ 0 := by decide
  have hchecks : checkCycles forest = [] ∧ checkUnreachable forest =
      [⟨.unreachable, .error, "1 frame(s) unreachable from the main root 'a': c"⟩] := by
    with_unfolding_all decide
  obtain ⟨mainRoot, outside, hroot, hrest⟩ := (topology_checks_list hids' hpos').2 hchecks.1
  exact ⟨(topology_checks_list hids hpos).1, hchecks.2, mainRoot, outside,
    hroot (List.cons_ne_nil _ _), hrest⟩

end TfTree.Doctor
