import Mathlib
import TfTree.Ingest.Fill

/-!
# Memory budgets and the groups of pass two

The sizes of `tf_tree_ingest/src/spill.rs` in arithmetic that stops at an overflow, and
`plan_groups` of `tf_tree_ingest/src/ingest.rs`, which packs the edges into re-reads of the
recording.

Results:
* `spill_fits`, `merge_fits`: the buffers of a spill and of a merge fit the effective cap.
* `planGroups_spec`: every edge with samples is in one group, and the groups that are sorted
  in memory fit the effective cap with the scratch of the sort.
* `planGroups_packed`, `planGroups_spilled`: so under any cap, for buffers that a `u64` can
  count twice; and only an edge that does not fit is spilled.
* `budgets_iff`: all of it holds of a cap exactly when three times the cap is a `u64`.
-/

namespace TfTree

variable {F : Type}

/-! ## Arithmetic of `u64` -/

namespace U64

/-- An operation with a result that may be too large: `none` is the overflow. -/
def checked (x : ℕ) : Option ℕ := if x < 2 ^ 64 then some x else none

/-- The saturating operations: the number of `u64` next to the result. -/
def saturating (x : ℕ) : ℕ := min x (2 ^ 64 - 1)

theorem checked_of_lt {x : ℕ} (h : x < 2 ^ 64) : checked x = some x := if_pos h

theorem checked_isSome {x y : ℕ} (h : checked x = some y) : x < 2 ^ 64 := by
  unfold checked at h
  split at h
  · assumption
  · cases h

end U64

/-! ## Model of `spill.rs` -/

/-- `fan_in` (lines 80–85), with its product checked. -/
def checkedFanIn (userCap : ℕ) : Option ℕ := do
  let product ← U64.checked (capOf userCap * 3)
  some (max (product / 4 / ENCODED - 1) 2)

/-- `merge_window_samples` (lines 90–94), with its product checked. -/
def checkedWindow (userCap runs : ℕ) : Option ℕ := do
  let product ← U64.checked (capOf userCap * 3)
  some (max (product / 4 / ENCODED / U64.saturating (runs + 1)) 1)

/-- `spill_budget` (lines 70–75), with its difference checked. -/
def checkedBudget (userCap : ℕ) : Option (ℕ × ℕ) :=
  if stagingOf (capOf userCap) ≤ capOf userCap then some (spillBudget userCap) else none

/-! ## Model of `ingest.rs` -/

/-- `SAMPLE_BYTES`. -/
def SAMPLE_BYTES : ℕ := 8 + 7 * 8

/-- `EdgeSurvey`, of which the planner reads the pose and the count. -/
structure EdgeSurvey (F : Type) where
  staticPose : Option (Fin 7 → F)
  samples : UInt64

namespace EdgeSurvey

/-- `is_static` (lines 224–226). -/
def isStatic (e : EdgeSurvey F) : Bool := e.staticPose.isSome

/-- The edge has samples that pass two sorts. -/
def live (e : EdgeSurvey F) : Bool := !e.isStatic && e.samples != 0

/-- The bytes of the edge's sort buffer. -/
def bytes (e : EdgeSurvey F) : ℕ := e.samples.toNat * SAMPLE_BYTES

end EdgeSurvey

/-- `Group`. -/
inductive EdgeGroup where
  | inMemory (edges : List ℕ)
  | spilled (edge : ℕ)
  deriving DecidableEq, Repr

/-- The edges of a group. -/
def EdgeGroup.members : EdgeGroup → List ℕ
  | .inMemory edges => edges
  | .spilled edge => [edge]

/-- The variables of `plan_groups`. -/
structure Packing where
  groups : List EdgeGroup
  cur : List ℕ
  curBytes : ℕ
  curMax : ℕ

namespace Packing

/-- `flush` (lines 725–732). -/
def flush (p : Packing) : Packing where
  groups := if p.cur = [] then p.groups else p.groups ++ [.inMemory p.cur]
  cur := []
  curBytes := 0
  curMax := 0

/-- `cur.push(i)` and the two counters (lines 760–762). -/
def add (p : Packing) (i need : ℕ) : Option Packing := do
  let curBytes ← U64.checked (p.curBytes + need)
  some { p with cur := p.cur ++ [i], curBytes := curBytes, curMax := max p.curMax need }

/-- The body of the loop of `plan_groups` (lines 741–763). -/
def step (edges : List (EdgeSurvey F)) (cap : ℕ) (p : Packing) (i : ℕ) : Option Packing := do
  let e ← edges[i]?
  if e.isStatic ∨ e.samples = 0 then some p
  else
    let need := U64.saturating e.bytes
    if U64.saturating (need * 2) > cap then
      some { p.flush with groups := p.flush.groups ++ [.spilled i] }
    else if U64.saturating (U64.saturating (p.curBytes + need) + max p.curMax need) > cap then
      p.flush.add i need
    else p.add i need

end Packing

/-- `rank` (lines 735–738). -/
def rankOf (n : ℕ) (order : List ℕ) : List ℕ :=
  order.zipIdx.foldl (fun rank p => rank.set p.1 p.2) (List.replicate n (2 ^ 64 - 1))

/-- `packing` (lines 739–740): the largest counts first, equal ones in the given order. -/
def packingOf (edges : List (EdgeSurvey F)) (order : List ℕ) : List ℕ :=
  let rank := rankOf edges.length order
  order.mergeSort <| Data.keyLe fun i =>
    toLex (OrderDual.toDual ((edges[i]?.map (·.samples.toNat)).getD 0), rank.getD i 0)

/-- `plan_groups` (lines 719–766). -/
def planGroups (edges : List (EdgeSurvey F)) (order : List ℕ) (userCap : ℕ) :
    Option (List EdgeGroup) := do
  let p ← (packingOf edges order).foldlM (Packing.step edges (capOf userCap)) ⟨[], [], 0, 0⟩
  some p.flush.groups

/-- The names of the frames of the edge of an index. -/
def namesOf {N : Type} (edges : List (EdgeSurvey F)) (name : EdgeSurvey F → N) (i : ℕ) :
    WithBot N := edges[i]?.map name

/-- `canonical_order` (lines 905–913); `name` gives the names of the frames of an edge. -/
def canonicalOrder {N : Type} [LinearOrder N] (edges : List (EdgeSurvey F))
    (name : EdgeSurvey F → N) : List ℕ :=
  (List.range edges.length).mergeSort (Data.keyLe (namesOf edges name))

/-! ## The sizes fit the cap -/

section Sizes

variable {userCap : ℕ}

theorem le_capOf (userCap : ℕ) : 1024 ≤ capOf userCap := Nat.le_max_right ..

/-- Both ends of the staging buffer: it is at most an eighth of the cap. -/
theorem stagingOf_le (userCap : ℕ) :
    64 ≤ stagingOf (capOf userCap) ∧ stagingOf (capOf userCap) ≤ capOf userCap / 8 := by
  have hcap := le_capOf userCap
  generalize capOf userCap = cap at hcap
  simp only [stagingOf, ENCODED]
  omega

theorem checkedBudget_eq (userCap : ℕ) : checkedBudget userCap = some (spillBudget userCap) :=
  if_pos ((stagingOf_le userCap).2.trans (Nat.div_le_self ..))

/-- Two run buffers and the staging buffer. -/
theorem spill_fits (userCap : ℕ) :
    2 * (spillBudget userCap).1 * ENCODED + (spillBudget userCap).2 ≤ capOf userCap := by
  have hcap := le_capOf userCap
  have hstaging := (stagingOf_le userCap).2
  change 2 * max ((capOf userCap - stagingOf (capOf userCap)) / (2 * ENCODED)) 1 * ENCODED +
    stagingOf (capOf userCap) ≤ capOf userCap
  generalize stagingOf (capOf userCap) = staging at hstaging
  generalize capOf userCap = cap at hcap hstaging
  simp only [ENCODED]
  omega

theorem checkedFanIn_of_lt (h : capOf userCap * 3 < 2 ^ 64) :
    checkedFanIn userCap = some (capOf userCap * 3 / 4 / ENCODED - 1) := by
  have hcap := le_capOf userCap
  have hmax : max (capOf userCap * 3 / 4 / ENCODED - 1) 2 =
      capOf userCap * 3 / 4 / ENCODED - 1 := by
    simp only [ENCODED]
    omega
  rw [checkedFanIn, U64.checked_of_lt h]
  exact congrArg some hmax

theorem checkedWindow_of_lt (h : capOf userCap * 3 < 2 ^ 64) {runs : ℕ}
    (hruns : runs + 1 < 2 ^ 64) :
    checkedWindow userCap runs =
      some (max (capOf userCap * 3 / 4 / ENCODED / (runs + 1)) 1) := by
  have hsat : U64.saturating (runs + 1) = runs + 1 := by
    unfold U64.saturating
    omega
  rw [checkedWindow, U64.checked_of_lt h, hsat]
  rfl

/-- The windows of the runs, the decode staging of one window, and two staging buffers. -/
theorem merge_fits {runs : ℕ} (hruns : runs ≤ capOf userCap * 3 / 4 / ENCODED - 1) :
    (runs + 1) * max (capOf userCap * 3 / 4 / ENCODED / (runs + 1)) 1 * ENCODED +
      2 * stagingOf (capOf userCap) ≤ capOf userCap := by
  have hcap := le_capOf userCap
  have hstaging := (stagingOf_le userCap).2
  have hwindows : 12 ≤ capOf userCap * 3 / 4 / ENCODED := by
    simp only [ENCODED]
    omega
  have hshare : capOf userCap * 3 / 4 / ENCODED * ENCODED ≤ capOf userCap * 3 / 4 :=
    Nat.div_mul_le_self ..
  generalize capOf userCap * 3 / 4 / ENCODED = windows at hruns hwindows hshare
  have hone : 1 ≤ windows / (runs + 1) := (Nat.one_le_div_iff (Nat.succ_pos runs)).mpr (by omega)
  have hall : (runs + 1) * (windows / (runs + 1)) ≤ windows := Nat.mul_div_le ..
  rw [max_eq_left hone]
  have hbytes : (runs + 1) * (windows / (runs + 1)) * ENCODED ≤ windows * ENCODED :=
    Nat.mul_le_mul_right ENCODED hall
  omega

end Sizes

/-! ## The groups -/

/-- The bytes of the sort buffer of the edge of an index. -/
def bufferOf (edges : List (EdgeSurvey F)) (i : ℕ) : ℕ := (edges[i]?.map (·.bytes)).getD 0

/-- The edge of an index has samples to sort. -/
def liveAt (edges : List (EdgeSurvey F)) (i : ℕ) : Bool := (edges[i]?.map (·.live)).getD false

/-- The buffers of the edges, and the scratch for the largest of them. -/
def peakOf (edges : List (EdgeSurvey F)) (members : List ℕ) : ℕ :=
  (members.map (bufferOf edges)).sum + (members.map (bufferOf edges)).foldl max 0

/-- A group that is sorted in memory fits the cap. -/
def EdgeGroup.Fits (edges : List (EdgeSurvey F)) (cap : ℕ) : EdgeGroup → Prop
  | .inMemory members => peakOf edges members ≤ cap
  | .spilled _ => True

namespace Packing

variable {edges : List (EdgeSurvey F)} {cap : ℕ} {seen : List ℕ} {p : Packing}

/-- What the loop of `plan_groups` keeps, for the indices `seen` that it has met. -/
structure Packed (edges : List (EdgeSurvey F)) (cap : ℕ) (seen : List ℕ) (p : Packing) : Prop where
  members_perm : (p.groups.flatMap EdgeGroup.members ++ p.cur).Perm (seen.filter (liveAt edges))
  fits : ∀ g ∈ p.groups, g.Fits edges cap
  curBytes_eq : p.curBytes = (p.cur.map (bufferOf edges)).sum
  curMax_eq : p.curMax = (p.cur.map (bufferOf edges)).foldl max 0
  cur_fits : p.curBytes + p.curMax ≤ cap

theorem Packed.start : Packed edges cap [] ⟨[], [], 0, 0⟩ where
  members_perm := .nil
  fits _ hg := nomatch hg
  curBytes_eq := rfl
  curMax_eq := rfl
  cur_fits := Nat.zero_le _

theorem flush_members (p : Packing) :
    p.flush.groups.flatMap EdgeGroup.members = p.groups.flatMap EdgeGroup.members ++ p.cur := by
  by_cases h : p.cur = []
  · simp [flush, h]
  · simp [flush, h, EdgeGroup.members]

theorem Packed.flush (h : Packed edges cap seen p) : Packed edges cap seen p.flush where
  members_perm := by
    rw [flush_members]
    exact (List.append_nil _).symm ▸ h.members_perm
  fits g hg := by
    by_cases hcur : p.cur = []
    · simp only [Packing.flush, if_pos hcur] at hg
      exact h.fits g hg
    · simp only [Packing.flush, if_neg hcur, List.mem_append, List.mem_singleton] at hg
      rcases hg with hg | rfl
      · exact h.fits g hg
      · change peakOf edges p.cur ≤ cap
        rw [peakOf, ← h.curBytes_eq, ← h.curMax_eq]
        exact h.cur_fits
  curBytes_eq := rfl
  curMax_eq := rfl
  cur_fits := Nat.zero_le _

/-- An edge without samples changes nothing. -/
theorem Packed.skip (h : Packed edges cap seen p) {i : ℕ} (hi : liveAt edges i = false) :
    Packed edges cap (seen ++ [i]) p := by
  have hseen : (seen ++ [i]).filter (liveAt edges) = seen.filter (liveAt edges) := by
    simp [List.filter_append, hi]
  exact { h with members_perm := hseen ▸ h.members_perm }

theorem filter_snoc {i : ℕ} (hi : liveAt edges i = true) :
    (seen ++ [i]).filter (liveAt edges) = seen.filter (liveAt edges) ++ [i] := by
  simp [List.filter_append, hi]

/-- An edge that is spilled, behind a flush. -/
theorem Packed.spill (h : Packed edges cap seen p) {i : ℕ} (hi : liveAt edges i = true) :
    Packed edges cap (seen ++ [i]) { p.flush with groups := p.flush.groups ++ [.spilled i] } where
  members_perm := by
    have hmembers := h.flush.members_perm
    have hcur : p.flush.cur = [] := rfl
    rw [hcur, List.append_nil] at hmembers
    rw [filter_snoc hi, hcur, List.append_nil, List.flatMap_append]
    exact hmembers.append_right [i]
  fits g hg := by
    rcases List.mem_append.mp hg with hg | hg
    · exact h.flush.fits g hg
    · rw [List.mem_singleton.mp hg]
      trivial
  curBytes_eq := rfl
  curMax_eq := rfl
  cur_fits := Nat.zero_le _

/-- An edge that fits the open group. -/
theorem Packed.add (h : Packed edges cap seen p) {i : ℕ} (hi : liveAt edges i = true)
    (hfit : p.curBytes + bufferOf edges i + max p.curMax (bufferOf edges i) ≤ cap)
    (hcap : cap < 2 ^ 64) :
    ∃ p', p.add i (bufferOf edges i) = some p' ∧ Packed edges cap (seen ++ [i]) p' := by
  refine ⟨{ p with
    cur := p.cur ++ [i]
    curBytes := p.curBytes + bufferOf edges i
    curMax := max p.curMax (bufferOf edges i) }, ?_, ?_⟩
  · rw [Packing.add, U64.checked_of_lt (by omega)]
    rfl
  · refine ⟨?_, h.fits, ?_, ?_, hfit⟩
    · rw [filter_snoc hi, ← List.append_assoc]
      exact h.members_perm.append_right [i]
    · rw [List.map_append, List.sum_append, ← h.curBytes_eq]
      rfl
    · rw [List.map_append, List.foldl_append, ← h.curMax_eq]
      rfl

theorem foldl_max_le_sum (xs : List ℕ) : xs.foldl max 0 ≤ xs.sum := by
  induction xs using List.reverseRecOn with
  | nil => exact le_rfl
  | append_singleton xs x ih =>
    rw [List.foldl_append, List.sum_append, List.sum_singleton]
    exact max_le (ih.trans (Nat.le_add_right _ _)) (Nat.le_add_left _ _)

/-- The open group is no larger than all that was met. -/
theorem Packed.curBytes_le (h : Packed edges cap seen p) :
    p.curBytes ≤ (seen.map (bufferOf edges)).sum := by
  have hsum := (h.members_perm.map (bufferOf edges)).sum_eq
  rw [List.map_append, List.sum_append, ← h.curBytes_eq] at hsum
  have hfilter := (List.filter_sublist (p := liveAt edges) (l := seen)).map (bufferOf edges)
  have hle := hfilter.sum_le_sum fun _ _ => Nat.zero_le _
  omega

/-- One turn of the loop. Numbers that saturate do not matter: either the cap is not the
largest `u64`, or the buffers are not that large. -/
theorem Packed.step (h : Packed edges cap seen p) {i : ℕ} (hi : i < edges.length)
    (hcap : cap < 2 ^ 64)
    (hexact : cap < 2 ^ 64 - 1 ∨ 2 * (p.curBytes + bufferOf edges i) < 2 ^ 64) :
    ∃ p', Packing.step edges cap p i = some p' ∧ Packed edges cap (seen ++ [i]) p' := by
  have hmax : p.curMax ≤ p.curBytes := by
    rw [h.curMax_eq, h.curBytes_eq]
    exact foldl_max_le_sum _
  have he : edges[i]? = some edges[i] := List.getElem?_eq_getElem hi
  have hbuffer : bufferOf edges i = edges[i].bytes := by rw [bufferOf, he]; rfl
  have hlive : liveAt edges i = edges[i].live := by rw [liveAt, he]; rfl
  generalize edges[i] = e at he hbuffer hlive
  have hstep : Packing.step edges cap p i = if e.isStatic ∨ e.samples = 0 then some p
      else if U64.saturating (U64.saturating e.bytes * 2) > cap then
        some { p.flush with groups := p.flush.groups ++ [.spilled i] }
      else if U64.saturating (U64.saturating (p.curBytes + U64.saturating e.bytes) +
          max p.curMax (U64.saturating e.bytes)) > cap then
        p.flush.add i (U64.saturating e.bytes)
      else p.add i (U64.saturating e.bytes) := by
    rw [Packing.step, he]
    rfl
  rw [hstep]
  by_cases hdead : e.isStatic ∨ e.samples = 0
  · rw [if_pos hdead]
    refine ⟨p, rfl, h.skip ?_⟩
    rw [hlive, EdgeSurvey.live]
    rcases hdead with hstatic | hzero
    · rw [hstatic]
      rfl
    · rw [hzero]
      exact Bool.and_false _
  · have hi : liveAt edges i = true := by
      rw [hlive, EdgeSurvey.live]
      simpa using hdead
    rw [if_neg hdead]
    by_cases hlarge : U64.saturating (U64.saturating e.bytes * 2) > cap
    · rw [if_pos hlarge]
      exact ⟨_, rfl, h.spill hi⟩
    · -- no saturated number hides a larger one
      have hneed : U64.saturating e.bytes = e.bytes ∧ e.bytes * 2 ≤ cap := by
        rw [hbuffer] at hexact
        unfold U64.saturating at hlarge ⊢
        omega
      rw [if_neg hlarge, hneed.1, ← hbuffer]
      rw [← hbuffer] at hneed
      by_cases hfull : U64.saturating (U64.saturating (p.curBytes + bufferOf edges i) +
          max p.curMax (bufferOf edges i)) > cap
      · rw [if_pos hfull]
        refine h.flush.add hi ?_ hcap
        change 0 + bufferOf edges i + max 0 (bufferOf edges i) ≤ cap
        omega
      · rw [if_neg hfull]
        refine h.add hi ?_ hcap
        unfold U64.saturating at hfull
        omega

theorem Packed.foldlM (hcap : cap < 2 ^ 64) {rest : List ℕ} (h : Packed edges cap seen p)
    (hexact : cap < 2 ^ 64 - 1 ∨ 2 * ((seen ++ rest).map (bufferOf edges)).sum < 2 ^ 64)
    (hrest : ∀ i ∈ rest, i < edges.length) :
    ∃ p', rest.foldlM (Packing.step edges cap) p = some p' ∧
      Packed edges cap (seen ++ rest) p' := by
  induction rest generalizing seen p with
  | nil => exact ⟨p, rfl, (List.append_nil seen).symm ▸ h⟩
  | cons i rest ih =>
    have hturn : cap < 2 ^ 64 - 1 ∨ 2 * (p.curBytes + bufferOf edges i) < 2 ^ 64 := by
      refine hexact.imp_right fun hsum => ?_
      rw [List.map_append, List.sum_append, List.map_cons, List.sum_cons] at hsum
      have hle := h.curBytes_le
      omega
    obtain ⟨p', hp', hpacked⟩ := h.step (hrest i List.mem_cons_self) hcap hturn
    rw [List.append_cons] at hexact
    obtain ⟨p'', hp'', hpacked'⟩ :=
      ih hpacked hexact fun j hj => hrest j (List.mem_cons_of_mem i hj)
    refine ⟨p'', ?_, ?_⟩
    · rw [List.foldlM_cons, hp']
      exact hp''
    · rwa [List.append_assoc] at hpacked'

end Packing

theorem packingOf_perm (edges : List (EdgeSurvey F)) (order : List ℕ) :
    (packingOf edges order).Perm order := List.mergeSort_perm ..

theorem canonicalOrder_perm {N : Type} [LinearOrder N] (edges : List (EdgeSurvey F))
    (name : EdgeSurvey F → N) :
    (canonicalOrder edges name).Perm (List.range edges.length) := List.mergeSort_perm ..

/-- The plan has every edge with samples in one group, and every group that is sorted in memory
fits the effective cap. -/
theorem planGroups_packed {edges : List (EdgeSurvey F)} {order : List ℕ} {userCap : ℕ}
    (horder : order.Perm (List.range edges.length)) (hcap : capOf userCap < 2 ^ 64)
    (hexact : capOf userCap < 2 ^ 64 - 1 ∨
      2 * ((List.range edges.length).map (bufferOf edges)).sum < 2 ^ 64) :
    ∃ groups, planGroups edges order userCap = some groups ∧
      (∀ i, (groups.flatMap EdgeGroup.members).count i = if liveAt edges i then 1 else 0) ∧
      ∀ g ∈ groups, g.Fits edges (capOf userCap) := by
  have hperm := (packingOf_perm edges order).trans horder
  have hrange : ∀ i ∈ packingOf edges order, i < edges.length := by
    intro i hi
    exact List.mem_range.mp (hperm.mem_iff.mp hi)
  rw [← (hperm.map (bufferOf edges)).sum_eq, ← List.nil_append (packingOf edges order)] at hexact
  obtain ⟨p, hp, hpacked⟩ := Packing.Packed.start.foldlM hcap hexact hrange
  refine ⟨p.flush.groups, ?_, fun i => ?_, hpacked.flush.fits⟩
  · rw [planGroups, hp]
    rfl
  · have hmembers := hpacked.members_perm.trans ((hperm.filter (liveAt edges)))
    rw [Packing.flush_members, hmembers.count_eq]
    by_cases hlive : liveAt edges i = true
    · have hi : i < edges.length := by
        by_contra hge
        rw [liveAt, List.getElem?_eq_none (not_lt.mp hge)] at hlive
        cases hlive
      rw [if_pos hlive, List.count_filter hlive]
      exact List.count_eq_one_of_mem List.nodup_range (List.mem_range.mpr hi)
    · rw [if_neg hlive]
      apply List.count_eq_zero_of_not_mem
      intro hmem
      exact hlive (List.mem_filter.mp hmem).2

/-- A plan below the largest `u64`. -/
theorem planGroups_spec {edges : List (EdgeSurvey F)} {order : List ℕ} {userCap : ℕ}
    (horder : order.Perm (List.range edges.length)) (hcap : capOf userCap < 2 ^ 64 - 1) :
    ∃ groups, planGroups edges order userCap = some groups ∧
      (∀ i, (groups.flatMap EdgeGroup.members).count i = if liveAt edges i then 1 else 0) ∧
      ∀ g ∈ groups, g.Fits edges (capOf userCap) :=
  planGroups_packed horder (by omega) (.inl hcap)

/-- Every edge that is spilled does not fit the cap with its scratch. -/
def Packing.SpillsLarge (edges : List (EdgeSurvey F)) (cap : ℕ) (groups : List EdgeGroup) : Prop :=
  ∀ i, .spilled i ∈ groups → cap < 2 * bufferOf edges i

section Spills

variable {edges : List (EdgeSurvey F)} {cap : ℕ} {p p' : Packing} {i : ℕ}

theorem Packing.SpillsLarge.flush (h : Packing.SpillsLarge edges cap p.groups) :
    Packing.SpillsLarge edges cap p.flush.groups := by
  intro i hi
  unfold Packing.flush at hi
  split_ifs at hi
  · exact h i hi
  · rcases List.mem_append.mp hi with hi | hi
    · exact h i hi
    · cases List.mem_singleton.mp hi

theorem Packing.SpillsLarge.add (h : Packing.SpillsLarge edges cap p.groups) {need : ℕ}
    (hadd : p.add i need = some p') : Packing.SpillsLarge edges cap p'.groups := by
  obtain ⟨bytes, -, hp'⟩ := Option.bind_eq_some_iff.mp hadd
  cases hp'
  exact h

theorem Packing.SpillsLarge.step (h : Packing.SpillsLarge edges cap p.groups)
    (hstep : Packing.step edges cap p i = some p') :
    Packing.SpillsLarge edges cap p'.groups := by
  obtain ⟨e, he, hstep⟩ := Option.bind_eq_some_iff.mp hstep
  dsimp only at hstep
  split_ifs at hstep with hdead hlarge hfull
  · cases hstep
    exact h
  · cases hstep
    intro j hj
    rcases List.mem_append.mp hj with hj | hj
    · exact h.flush j hj
    · cases List.mem_singleton.mp hj
      rw [bufferOf, he]
      simp only [U64.saturating, Option.map_some, Option.getD_some] at hlarge ⊢
      omega
  · exact h.flush.add hstep
  · exact h.add hstep

theorem Packing.SpillsLarge.foldlM {is : List ℕ} (h : Packing.SpillsLarge edges cap p.groups)
    (hfold : is.foldlM (Packing.step edges cap) p = some p') :
    Packing.SpillsLarge edges cap p'.groups := by
  induction is generalizing p with
  | nil =>
    cases hfold
    exact h
  | cons i is ih =>
    obtain ⟨p₁, hp₁, hrest⟩ := Option.bind_eq_some_iff.mp hfold
    exact ih (h.step hp₁) hrest

/-- Only an edge that does not fit the cap with its scratch is spilled. -/
theorem planGroups_spilled {order : List ℕ} {userCap : ℕ} {groups : List EdgeGroup}
    (hplan : planGroups edges order userCap = some groups) :
    Packing.SpillsLarge edges (capOf userCap) groups := by
  obtain ⟨p, hp, hgroups⟩ := Option.bind_eq_some_iff.mp hplan
  cases hgroups
  have hstart : Packing.SpillsLarge edges (capOf userCap) ([] : List EdgeGroup) := by
    intro i hi
    cases hi
  exact (hstart.foldlM (p := ⟨[], [], 0, 0⟩) hp).flush

end Spills

/-! ## Every cap -/

/-- What the memory cap promises: no operation overflows, the buffers of both phases of a
spill fit the effective cap, and the plan of pass two packs every edge and fits too. -/
def Budgeted (F : Type) (userCap : ℕ) : Prop :=
  (∃ run staging, checkedBudget userCap = some (run, staging) ∧
    2 * run * ENCODED + staging ≤ capOf userCap) ∧
  (∃ fan, checkedFanIn userCap = some fan ∧ 2 ≤ fan ∧ ∀ runs, 1 ≤ runs → runs ≤ fan →
    ∃ window, checkedWindow userCap runs = some window ∧ 1 ≤ window ∧
      (runs + 1) * window * ENCODED + 2 * stagingOf (capOf userCap) ≤ capOf userCap) ∧
  ∀ (edges : List (EdgeSurvey F)) (order : List ℕ), order.Perm (List.range edges.length) →
    ∃ groups, planGroups edges order userCap = some groups ∧
      (∀ i, (groups.flatMap EdgeGroup.members).count i = if liveAt edges i then 1 else 0) ∧
      ∀ g ∈ groups, g.Fits edges (capOf userCap)

/-- A cap is budgeted exactly when three times the effective cap is a `u64`. -/
theorem budgets_iff (F : Type) (userCap : UInt64) :
    Budgeted F userCap.toNat ↔ 3 * max userCap.toNat MIN_CAP < 2 ^ 64 := by
  rw [Nat.mul_comm]
  change _ ↔ capOf userCap.toNat * 3 < 2 ^ 64
  have hcap := le_capOf userCap.toNat
  constructor
  · rintro ⟨-, ⟨fan, hfan, -⟩, -⟩
    rw [checkedFanIn, Option.bind_eq_bind, Option.bind_eq_some_iff] at hfan
    obtain ⟨product, hproduct, -⟩ := hfan
    exact U64.checked_isSome hproduct
  · intro h
    refine ⟨⟨_, _, checkedBudget_eq _, spill_fits _⟩, ⟨_, checkedFanIn_of_lt h, ?_, ?_⟩, ?_⟩
    · simp only [ENCODED]
      omega
    · intro runs hone hruns
      refine ⟨_, checkedWindow_of_lt h ?_, Nat.le_max_right .., merge_fits hruns⟩
      simp only [ENCODED] at hruns
      omega
    · intro edges order horder
      exact planGroups_spec horder (by omega)

/-- The largest cap: the product of `fan_in` overflows. -/
theorem not_budgeted_max : ¬ Budgeted (BitVec 64) (2 ^ 64 - 1) := by
  rintro ⟨-, ⟨fan, hfan, -⟩, -⟩
  have hnone : checkedFanIn (2 ^ 64 - 1) = none := by decide
  rw [hnone] at hfan
  cases hfan

end TfTree
