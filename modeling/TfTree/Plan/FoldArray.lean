import TfTree.Plan.Compile

/-!
# Constant folding in a step array

`fold_into` (`tf_tree_core/src/plan.rs`) with the array of `MAX_DEPTH` steps it
writes to. `none` is a panic: an index out of range, or `n - 1` at `n = 0`.

Results:
* `foldArray_eq`: no index is out of range, and `foldInto` is what the array holds.
-/

namespace TfTree

variable {P : Type}

/-! ## Model of `fold_into` -/

/-- The locals of `fold_into`; `out` is the whole step array. -/
structure FoldArray (P : Type) where
  out : List (Step P)
  n : ℕ
  dynCount : ℕ
  firstDyn : EdgeId
  lastStatic : Bool
  domain : Option ℕ

/-- `plan.steps` of `Plan::identity`, and the locals before the loop. -/
def FoldArray.init [One P] : FoldArray P :=
  ⟨List.replicate maxDepth (.static 1), 0, 0, 0, false, none⟩

/-- `out[i] = s`. -/
def storeStep (out : List (Step P)) (i : ℕ) (s : Step P) : Option (List (Step P)) :=
  if i < out.length then some (out.set i s) else none

section Fold

variable [Mul P] [Inv P] (edgeMeta : EdgeId → Option (EdgeMeta P))

/-- The append arm (lines 1953–1966). -/
def FoldArray.append (st : FoldArray P) (s : Step P) : Option (FoldArray P) := do
  let out ← if st.n < maxDepth then storeStep st.out st.n s else some st.out
  return {
    out := out
    n := st.n + 1
    firstDyn := match s with
      | .dyn edge _ => if st.dynCount = 0 then edge else st.firstDyn
      | .static _ => st.firstDyn
    dynCount := match s with
      | .dyn _ _ => min 255 (st.dynCount + 1)
      | .static _ => st.dynCount
    lastStatic := match s with
      | .static _ => true
      | .dyn _ _ => false
    domain := st.domain }

/-- A resolved static step (lines 1945–1952). -/
def FoldArray.pushStatic (st : FoldArray P) (cur : P) : Option (FoldArray P) :=
  if st.lastStatic then
    if st.n ≤ maxDepth then
      if st.n = 0 then none
      else
        match st.out[st.n - 1]? with
        | none => none
        | some (.static prev) => do
          let out ← storeStep st.out (st.n - 1) (.static (prev * cur))
          return { st with out := out }
        | some (.dyn _ _) => some st
    else some st
  else st.append (.static cur)

/-- One iteration of the loop (lines 1914–1968). -/
def foldArrayStep (st : FoldArray P) (edge : EdgeId) (inverted : Bool) :
    Option (Except LookupError (FoldArray P)) :=
  match edgeMeta edge with
  | none => some (.error (.unknownEdge edge))
  | some em =>
    if em.kind = .static then
      (st.pushStatic (if inverted then em.staticPose⁻¹ else em.staticPose)).map .ok
    else
      match st.domain with
      | none => ({ st with domain := some em.domain }.append (.dyn edge inverted)).map .ok
      | some d =>
        if d ≠ em.domain then some (.error (.mixedTimeDomains edge d em.domain))
        else (st.append (.dyn edge inverted)).map .ok

/-- The loop of `fold_into`. -/
def foldArrayPath : FoldArray P → List (EdgeId × Bool) →
    Option (Except LookupError (FoldArray P))
  | st, [] => some (.ok st)
  | st, (edge, inverted) :: path =>
    match foldArrayStep edgeMeta st edge inverted with
    | none => none
    | some (.error e) => some (.error e)
    | some (.ok st') => foldArrayPath st' path

/-- The end of `fold_into` (lines 1969–1977). -/
def FoldArray.finish (generation : ℕ) (st : FoldArray P) : Except LookupError (Plan P) :=
  if st.n > maxDepth then .error (.treeTooDeep st.n)
  else .ok {
    generation := generation
    steps := st.out.take (min st.n maxDepth)
    domain := st.domain.getD 0
    dynCount := st.dynCount
    firstDyn := st.firstDyn
    steps_le := (List.length_take_le _ _).trans (min_le_right _ _) }

/-- `fold_into` (lines 1893–1978), returning the plan it fills. -/
def foldArray [One P] (generation : ℕ) (tEdges sEdges : List ℕ) :
    Option (Except LookupError (Plan P)) :=
  match foldArrayPath edgeMeta .init (foldEdges tEdges sEdges) with
  | none => none
  | some (.error e) => some (.error e)
  | some (.ok st) => some (st.finish generation)

end Fold

/-! ## The array and the list -/

/-- The array begins with the steps of the list. -/
structure FoldArray.Holds (arr : FoldArray P) (st : FoldState P) : Prop where
  length : arr.out.length = maxDepth
  out : arr.out.take arr.n = st.out
  n : arr.n = st.n
  dynCount : arr.dynCount = st.dynCount
  firstDyn : arr.firstDyn = st.firstDyn
  lastStatic : arr.lastStatic = st.lastStatic
  domain : arr.domain = st.domain
  last : arr.lastStatic = true → arr.n ≠ 0

section Refinement

variable {arr : FoldArray P} {st : FoldState P}

theorem FoldArray.holds_init [One P] : (FoldArray.init : FoldArray P).Holds .init where
  length := List.length_replicate
  out := rfl
  n := rfl
  dynCount := rfl
  firstDyn := rfl
  lastStatic := rfl
  domain := rfl
  last := fun h => by cases h

/-- Writing the entry after the written ones. -/
theorem take_set_succ {out : List (Step P)} {n : ℕ} (s : Step P) (h : n < out.length) :
    (out.set n s).take (n + 1) = out.take n ++ [s] := by
  have hset : (out.set n s)[n]? = some s := by
    rw [List.getElem?_set_self h]
  rw [List.take_add_one, hset, List.take_set,
    List.set_eq_of_length_le (by rw [List.length_take]; omega)]
  rfl

/-- **Step lemma.** Appending writes inside the array. -/
theorem FoldArray.Holds.append (h : arr.Holds st) (s : Step P) :
    ∃ arr', arr.append s = some arr' ∧ arr'.Holds (st.append s) := by
  have hn := h.n
  have hlen := h.length
  have hdyn := h.dynCount
  have hfirst := h.firstDyn
  by_cases hlt : arr.n < maxDepth
  · have hstore : storeStep arr.out arr.n s = some (arr.out.set arr.n s) :=
      if_pos (by omega)
    have hout : (st.append s).out = st.out ++ [s] := if_pos (hn ▸ hlt)
    refine ⟨_, by simp only [FoldArray.append, if_pos hlt, hstore]; rfl, ?_⟩
    refine ⟨by simpa using hlen, ?_, congrArg (· + 1) hn, ?_, ?_, ?_, h.domain, ?_⟩
    · rw [hout, ← h.out]
      exact take_set_succ s (by omega)
    · cases s with
      | static m => exact hdyn
      | dyn edge inverted => simp only [FoldState.append, hdyn]
    · cases s with
      | static m => exact hfirst
      | dyn edge inverted => simp only [FoldState.append, hdyn, hfirst]
    · cases s <;> rfl
    · exact fun _ => Nat.succ_ne_zero _
  · have hout : (st.append s).out = st.out := if_neg (hn ▸ hlt)
    refine ⟨_, by simp only [FoldArray.append, if_neg hlt]; rfl, ?_⟩
    refine ⟨hlen, ?_, congrArg (· + 1) hn, ?_, ?_, ?_, h.domain, ?_⟩
    · rw [hout, ← h.out]
      show arr.out.take (arr.n + 1) = _
      rw [List.take_of_length_le (by omega), List.take_of_length_le (by omega)]
    · cases s with
      | static m => exact hdyn
      | dyn edge inverted => simp only [FoldState.append, hdyn]
    · cases s with
      | static m => exact hfirst
      | dyn edge inverted => simp only [FoldState.append, hdyn, hfirst]
    · cases s <;> rfl
    · exact fun _ => Nat.succ_ne_zero _

/-- **Step lemma.** The collapse reads and writes the last written entry. -/
theorem FoldArray.Holds.pushStatic [Mul P] (h : arr.Holds st) (cur : P) :
    ∃ arr', arr.pushStatic cur = some arr' ∧ arr'.Holds (st.pushStatic cur) := by
  have hn := h.n
  have hlen := h.length
  unfold FoldArray.pushStatic FoldState.pushStatic
  rw [h.lastStatic, hn]
  by_cases hlast : st.lastStatic = true
  · have hpos : st.n ≠ 0 := hn ▸ h.last (h.lastStatic.trans hlast)
    rw [if_pos hlast, if_pos hlast]
    by_cases hle : st.n ≤ maxDepth
    · have hget : arr.out[st.n - 1]? = st.out[st.n - 1]? := by
        rw [← h.out, hn, List.getElem?_take_of_lt (by omega)]
      have hsome : st.out[st.n - 1]? ≠ none := by
        rw [← hget, Ne, List.getElem?_eq_none_iff]
        omega
      rw [if_pos hle, if_neg hpos, if_pos hle, hget]
      cases hs : st.out[st.n - 1]? with
      | none => exact absurd hs hsome
      | some last =>
        cases last with
        | dyn edge inverted => exact ⟨arr, rfl, h⟩
        | static prev =>
          have hstore : storeStep arr.out (st.n - 1) (.static (prev * cur)) =
              some (arr.out.set (st.n - 1) (.static (prev * cur))) := if_pos (by omega)
          refine ⟨_, by simp only [hstore]; rfl, ?_⟩
          refine ⟨by simpa using hlen, ?_, rfl, h.dynCount, h.firstDyn, rfl, h.domain,
            fun _ => hpos⟩
          show (arr.out.set (st.n - 1) _).take st.n = st.out.set (st.n - 1) _
          rw [List.take_set, ← hn, h.out, hn]
    · rw [if_neg hle, if_neg hle]
      exact ⟨arr, rfl, h⟩
  · rw [if_neg hlast, if_neg hlast]
    exact h.append (.static cur)

/-- The array agrees with the list on a result of the loop. -/
def HoldsResult : Option (Except LookupError (FoldArray P)) →
    Except LookupError (FoldState P) → Prop
  | some (.ok arr), .ok st => arr.Holds st
  | some (.error e), .error e' => e = e'
  | _, _ => False

theorem HoldsResult.of_holds {x : Option (FoldArray P)} {st : FoldState P}
    (h : ∃ arr, x = some arr ∧ arr.Holds st) : HoldsResult (x.map .ok) (.ok st) := by
  obtain ⟨arr, rfl, h⟩ := h
  exact h

/-- The end of either loop. -/
theorem FoldArray.Holds.finish (h : arr.Holds st) (generation : ℕ) :
    arr.finish generation = if st.n > maxDepth then .error (.treeTooDeep st.n)
      else .ok {
        generation := generation
        steps := st.out
        domain := st.domain.getD 0
        dynCount := st.dynCount
        firstDyn := st.firstDyn
        steps_le := by rw [st.out_len]; exact min_le_right _ _ } := by
  have hn := h.n
  unfold FoldArray.finish
  by_cases hgt : st.n > maxDepth
  · rw [if_pos (hn ▸ hgt), if_pos hgt, hn]
  · have hmin : min arr.n maxDepth = arr.n := by omega
    rw [if_neg (hn ▸ hgt), if_neg hgt]
    simp only [hmin, h.out, h.domain, h.dynCount, h.firstDyn]

section Loops

variable [Mul P] [Inv P] (edgeMeta : EdgeId → Option (EdgeMeta P))

/-- **Step lemma.** One iteration of either loop. -/
theorem foldArrayStep_holds (h : arr.Holds st) (edge : EdgeId) (inverted : Bool) :
    HoldsResult (foldArrayStep edgeMeta arr edge inverted)
      (foldStep edgeMeta st edge inverted) := by
  unfold foldArrayStep foldStep
  cases edgeMeta edge with
  | none => rfl
  | some em =>
    by_cases hkind : em.kind = .static
    · simp only [if_pos hkind]
      exact .of_holds (h.pushStatic _)
    · simp only [if_neg hkind, h.domain]
      cases hd : st.domain with
      | none =>
        have h' : FoldArray.Holds { arr with domain := some em.domain }
            { st with domain := some em.domain } :=
          ⟨h.length, h.out, h.n, h.dynCount, h.firstDyn, h.lastStatic, rfl, h.last⟩
        exact .of_holds (h'.append _)
      | some d =>
        by_cases hne : d ≠ em.domain
        · simp only [if_pos hne]
          rfl
        · simp only [if_neg hne]
          exact .of_holds (h.append _)

theorem foldArrayPath_holds (h : arr.Holds st) (path : List (EdgeId × Bool)) :
    HoldsResult (foldArrayPath edgeMeta arr path) (foldPath edgeMeta st path) := by
  induction path generalizing arr st with
  | nil => exact h
  | cons e path ih =>
    have hstep := foldArrayStep_holds edgeMeta h e.1 e.2
    unfold foldArrayPath foldPath
    generalize foldArrayStep edgeMeta arr e.1 e.2 = x at hstep ⊢
    generalize foldStep edgeMeta st e.1 e.2 = y at hstep ⊢
    match x, y, hstep with
    | some (.error _), .error _, he => exact he
    | some (.ok arr'), .ok st', h' => exact ih h'

/-- No index into the step array is out of range, and its first `len` entries are the
    steps of `foldInto`. -/
theorem foldArray_eq [One P] (generation : ℕ) (ts ss : List ℕ) :
    foldArray edgeMeta generation ts ss = some (foldInto edgeMeta generation ts ss) := by
  have hrun := foldArrayPath_holds edgeMeta FoldArray.holds_init (foldEdges ts ss)
  unfold foldArray foldInto
  generalize foldArrayPath edgeMeta .init (foldEdges ts ss) = x at hrun ⊢
  generalize foldPath edgeMeta .init (foldEdges ts ss) = y at hrun ⊢
  match x, y, hrun with
  | some (.error e), .error _, he =>
    cases he
    rfl
  | some (.ok arr), .ok st, h => exact congrArg some (h.finish generation)

end Loops

end Refinement

end TfTree
