import TfTree.Ingest.Spill

/-!
# The two ways to fill an edge

Pass two of `tf_tree_ingest/src/ingest.rs` for the samples of one edge: the in-memory fill
(one stable sort, the last of equal stamps is pushed) and `fill_spilled` (sorted runs,
reduced until one merge holds them all, pushed with a delay of one sample).

Results:
* `Spilled.spillRuns`, `Spilled.reduce`: the runs hold the samples, equal stamps in
  recording order.
* `foldlM_delay`: the delayed loop pushes what the loop over the sorted buffer pushes.
* `fillSpilled_eq_fillInMemory`: the two fills agree.
-/

namespace TfTree

open Data

variable {F : Type}

/-! ## Budgets -/

/-- `MIN_CAP`. -/
def MIN_CAP : ℕ := 16 * ENCODED

/-- `MAX_STAGING`. -/
def MAX_STAGING : ℕ := 64 * 1024

/-- `cap_of` (lines 55–57). -/
def capOf (user : ℕ) : ℕ := max user MIN_CAP

/-- `staging_of` (lines 59–61). -/
def stagingOf (cap : ℕ) : ℕ := max ENCODED (min (cap / 8) MAX_STAGING)

/-- `spill_budget` (lines 70–75). -/
def spillBudget (userCap : ℕ) : ℕ × ℕ :=
  let cap := capOf userCap
  let staging := stagingOf cap
  (max ((cap - staging) / (2 * ENCODED)) 1, staging)

/-- The samples that fit the windows' share of a cap; the product is a `u64`. -/
def windowShare (cap : ℕ) : ℕ := cap * 3 % 2 ^ 64 / 4 / ENCODED

/-- `fan_in` (lines 80–85). -/
def fanIn (userCap : ℕ) : ℕ := max (windowShare (capOf userCap) - 1) 2

/-- `merge_window_samples` (lines 90–94). -/
def mergeWindowSamples (userCap runs : ℕ) : ℕ := max (windowShare (capOf userCap) / (runs + 1)) 1

/-- The sizes a spill works with; `window` is per number of merged runs. -/
structure SpillPlan where
  runSamples : ℕ
  staging : ℕ
  fanIn : ℕ
  window : ℕ → ℕ
  runSamples_pos : 0 < runSamples
  two_le_fanIn : 2 ≤ fanIn
  window_pos : ∀ runs, 0 < window runs

/-- The sizes for a cap. -/
def SpillPlan.ofCap (userCap : ℕ) : SpillPlan where
  runSamples := (spillBudget userCap).1
  staging := (spillBudget userCap).2
  fanIn := TfTree.fanIn userCap
  window := mergeWindowSamples userCap
  runSamples_pos := Nat.lt_of_lt_of_le Nat.one_pos (Nat.le_max_right _ _)
  two_le_fanIn := Nat.le_max_right _ _
  window_pos _ := Nat.lt_of_lt_of_le Nat.one_pos (Nat.le_max_right _ _)

/-! ## Model of `ingest.rs` -/

/-- The ring and the counters `FillStats::pushed` and `FillStats::duplicates`. -/
structure Filled (σ : Type) where
  ring : σ
  pushed : ℕ
  duplicates : ℕ

section Model

variable {σ : Type} (push : σ → Sample F → Except PushError σ)

/-- `writer.push(..).map_err(IngestError::Push)?` and its count. -/
def pushSample (st : Filled σ) (s : Sample F) : Except IngestError (Filled σ) :=
  match push st.ring s with
  | .error e => .error (.push e)
  | .ok ring => .ok { st with ring := ring, pushed := st.pushed + 1 }

/-- The loop over the sorted buffer (lines 684–696). -/
def fillSorted : Filled σ → List (Sample F) → Except IngestError (Filled σ)
  | st, [] => .ok st
  | st, s :: rest =>
    if rest.head?.any (fun next => next.stamp = s.stamp) then
      fillSorted { st with duplicates := st.duplicates + 1 } rest
    else
      match pushSample push st s with
      | .error e => .error e
      | .ok st => fillSorted st rest

/-- `fill` for the buffer of one edge (lines 671–697). -/
def fillInMemory (st : Filled σ) (buf : List (Sample F)) : Except IngestError (Filled σ) :=
  fillSorted push st (sortRun buf)

/-- The body of the last loop of `fill_spilled` (lines 879–891). -/
def delayStep (st : Option (Sample F) × Filled σ) (next : Sample F) :
    Except IngestError (Option (Sample F) × Filled σ) :=
  match st.1 with
  | none => .ok (some next, st.2)
  | some prev =>
    if prev.stamp = next.stamp then
      .ok (some next, { st.2 with duplicates := st.2.duplicates + 1 })
    else (pushSample push st.2 prev).map fun filled => (some next, filled)

/-- `if let Some(last) = pending` (lines 892–897). -/
def delayEnd (st : Option (Sample F) × Filled σ) : Except IngestError (Filled σ) :=
  match st.1 with
  | none => .ok st.2
  | some last => pushSample push st.2 last

variable [LeBytes F] (plan : SpillPlan)

/-- The body of the `read_tf` callback of `fill_spilled` (lines 811–817). -/
def spillSample (st : RunFile × List (Sample F)) (s : Sample F) : RunFile × List (Sample F) :=
  let buf := st.2 ++ [s]
  if buf.length = plan.runSamples then (st.1.writeRun (sortRun buf), []) else (st.1, buf)

/-- The runs of the first pass (lines 788–822). -/
def spillRuns (samples : List (Sample F)) : RunFile :=
  let (runs, buf) := samples.foldl (spillSample plan) (RunFile.create plan.staging, [])
  if buf = [] then runs else runs.writeRun (sortRun buf)

/-- `slice::chunks`. -/
def chunks {α : Type} (n : ℕ) : List α → List (List α)
  | [] => []
  | x :: xs => (x :: xs.take (n - 1)) :: chunks n (xs.drop (n - 1))
termination_by xs => xs.length
decreasing_by
  rw [List.length_drop, List.length_cons]
  omega

/-- One chunk of a reduce pass (lines 837–848). -/
def reduceChunk (F : Type) [LeBytes F] (runs next : RunFile) (chunk : List (ℕ × ℕ)) :
    Except IngestError RunFile :=
  match runs.mergeRuns (F := F) chunk (plan.window chunk.length) with
  | .error e => .error e
  | .ok m => (m.forEach (fun next s => .ok (next.append s)) next.beginRun).map RunFile.endRun

/-- One reduce pass (lines 835–857). -/
def reducePass (F : Type) [LeBytes F] (runs : RunFile) : Except IngestError RunFile :=
  (chunks plan.fanIn runs.runs).foldlM (reduceChunk plan F runs) (RunFile.create plan.staging)

end Model

/-! ### The reduce passes end -/

section Ends

variable {α : Type}

theorem flatten_chunks (n : ℕ) (xs : List α) : (chunks n xs).flatten = xs := by
  induction hk : xs.length using Nat.strong_induction_on generalizing xs with
  | _ k ih =>
    cases xs with
    | nil => simp [chunks]
    | cons x xs =>
      have hdrop :=
        ih (xs.drop (n - 1)).length (by rw [← hk, List.length_drop, List.length_cons]; omega) _ rfl
      rw [chunks, List.flatten_cons, hdrop, List.cons_append, List.take_append_drop]

theorem length_chunks_le {n : ℕ} (hn : 2 ≤ n) (xs : List α) :
    (chunks n xs).length * 2 ≤ xs.length + 1 := by
  induction hk : xs.length using Nat.strong_induction_on generalizing xs with
  | _ k ih =>
    cases xs with
    | nil => simp [chunks]
    | cons x xs =>
      rw [List.length_cons] at hk
      have hlen : (xs.drop (n - 1)).length = xs.length - (n - 1) := List.length_drop
      have hdrop := ih (xs.drop (n - 1)).length (by omega) _ rfl
      rw [chunks, List.length_cons]
      -- the chunk has `n` elements, or it is the last
      by_cases hlast : xs.length ≤ n - 1
      · rw [List.drop_eq_nil_of_le hlast, chunks]
        simp only [List.length_nil]
        omega
      · omega

variable [LeBytes F]

@[simp] theorem RunFile.runs_append (f : RunFile) (s : Sample F) : (f.append s).runs = f.runs := by
  have hflush := f.flush_bytes.2.2.1
  unfold RunFile.append
  split_ifs
  · exact hflush
  · rfl

theorem RunFile.runs_endRun_le (f : RunFile) : f.endRun.runs.length ≤ f.runs.length + 1 := by
  have hflush := f.flush_bytes.2.2.1
  cases hopen : f.flush.openRun with
  | none => simp [RunFile.endRun, hopen, hflush]
  | some span =>
    simp only [RunFile.endRun, hopen, hflush]
    split_ifs
    · simp
    · omega

theorem reduceChunk_runs_le {plan : SpillPlan} {runs next next' : RunFile} {chunk : List (ℕ × ℕ)}
    (h : reduceChunk plan F runs next chunk = .ok next') :
    next'.runs.length ≤ next.runs.length + 1 := by
  unfold reduceChunk at h
  split at h
  · cases h
  · next m _ =>
    cases hloop : m.forEach (fun (next : RunFile) s => .ok (next.append s)) next.beginRun with
    | error e => simp only [hloop, Except.map] at h; cases h
    | ok f =>
      simp only [hloop, Except.map] at h
      cases h
      have hruns : f.runs = next.runs := by
        refine Merger.forEach_inv (I := fun st => st.runs = next.runs) (fun st s st' hst hf => ?_)
          rfl hloop
        cases hf
        rw [RunFile.runs_append]
        exact hst
      rw [← hruns]
      exact f.runs_endRun_le

theorem foldlM_reduceChunk_runs_le {plan : SpillPlan} {runs : RunFile} (cs : List (List (ℕ × ℕ)))
    {next next' : RunFile} (h : cs.foldlM (reduceChunk plan F runs) next = .ok next') :
    next'.runs.length ≤ next.runs.length + cs.length := by
  induction cs generalizing next with
  | nil =>
    cases h
    exact Nat.le_refl _
  | cons c cs ih =>
    rw [List.foldlM_cons] at h
    cases hc : reduceChunk plan F runs next c with
    | error e => rw [hc] at h; cases h
    | ok next₁ =>
      rw [hc] at h
      have hone := reduceChunk_runs_le hc
      have hrest := ih h
      rw [List.length_cons]
      omega

/-- A reduce pass leaves fewer runs. -/
theorem reducePass_runs_lt {plan : SpillPlan} {runs next : RunFile}
    (hlt : plan.fanIn < runs.runs.length) (h : reducePass plan F runs = .ok next) :
    next.runs.length < runs.runs.length := by
  have hle := foldlM_reduceChunk_runs_le _ h
  have hchunks := length_chunks_le plan.two_le_fanIn runs.runs
  have hfan := plan.two_le_fanIn
  have hnew : (RunFile.create plan.staging).runs.length = 0 := rfl
  omega

end Ends

section Model

variable {σ : Type} [LeBytes F] (plan : SpillPlan)

/-- `while runs.runs() > fan_in` (lines 831–861). -/
def reduce (F : Type) [LeBytes F] (runs : RunFile) : Except IngestError RunFile :=
  if _hlt : plan.fanIn < runs.runs.length then
    match _h : reducePass plan F runs with
    | .error e => .error e
    | .ok next => reduce F next
  else .ok runs
termination_by runs.runs.length
decreasing_by exact reducePass_runs_lt _hlt _h

/-- `fill_spilled` (lines 770–900). -/
def fillSpilled (push : σ → Sample F → Except PushError σ) (st : Filled σ)
    (samples : List (Sample F)) : Except IngestError (Filled σ) :=
  match reduce plan F (spillRuns plan samples) with
  | .error e => .error e
  | .ok runs =>
    match runs.mergeRuns (F := F) runs.runs (plan.window runs.runs.length) with
    | .error e => .error e
    | .ok merged =>
      match merged.forEach (delayStep push) (none, st) with
      | .error e => .error e
      | .ok st => delayEnd push st

end Model

/-! ## The runs -/

theorem stableSortOf_sortRun (buf : List (Sample F)) :
    StableSortOf Sample.ns buf (sortRun buf) := stableSortOf_mergeSort Sample.ns buf

section Runs

variable [LeBytes F] {f : RunFile} {samples : List (Sample F)}

/-- The file holds the samples in sorted runs, equal stamps in their order. -/
def Spilled (f : RunFile) (samples : List (Sample F)) : Prop :=
  ∃ xss : List (List (Sample F)), f.Stores xss ∧
    (∀ xs ∈ xss, xs.Pairwise fun a b => a.ns ≤ b.ns) ∧ SameOrder Sample.ns xss.flatten samples

theorem spilled_create (staging : ℕ) : Spilled (F := F) (RunFile.create staging) [] :=
  ⟨[], RunFile.stores_create staging, nofun, SameOrder.refl _⟩

/-- A sorted run of further samples. -/
theorem Spilled.writeRun (h : Spilled f samples) {buf zs : List (Sample F)}
    (hz : StableSortOf Sample.ns buf zs) : Spilled (f.writeRun zs) (samples ++ buf) := by
  obtain ⟨xss, hstores, hsorted, horder⟩ := h
  have hall := horder.append hz.same
  have hwrite := hstores.writeRun zs
  by_cases hnil : zs = []
  · rw [if_pos hnil] at hwrite
    rw [hnil, List.append_nil] at hall
    exact ⟨xss, hwrite, hsorted, hall⟩
  · rw [if_neg hnil] at hwrite
    refine ⟨xss ++ [zs], hwrite, fun xs hxs => ?_, ?_⟩
    · rcases List.mem_append.mp hxs with hxs | hxs
      · exact hsorted xs hxs
      · rw [List.mem_singleton.mp hxs]
        exact hz.sorted
    · rw [List.flatten_append, List.flatten_singleton]
      exact hall

/-- The first pass loses no sample and keeps equal stamps in order. -/
theorem spilled_spillRuns (plan : SpillPlan) (samples : List (Sample F)) :
    Spilled (spillRuns plan samples) samples := by
  have hloop : ∀ (samples done buf : List (Sample F)) (f : RunFile), Spilled f done →
      ∃ done' f' buf', samples.foldl (spillSample plan) (f, buf) = (f', buf') ∧ Spilled f' done' ∧
        done' ++ buf' = done ++ buf ++ samples := by
    intro samples
    induction samples with
    | nil => exact fun done buf f h => ⟨done, f, buf, rfl, h, by simp⟩
    | cons s samples ih =>
      intro done buf f h
      rw [List.foldl_cons]
      unfold spillSample
      by_cases hfull : (buf ++ [s]).length = plan.runSamples
      · obtain ⟨done', f', buf', heq, hf', happ⟩ :=
          ih (done ++ (buf ++ [s])) [] _ (h.writeRun (stableSortOf_sortRun (buf ++ [s])))
        simp only [hfull, if_true]
        exact ⟨done', f', buf', heq, hf', happ.trans (by simp)⟩
      · obtain ⟨done', f', buf', heq, hf', happ⟩ := ih done (buf ++ [s]) f h
        simp only [hfull, if_false]
        exact ⟨done', f', buf', heq, hf', happ.trans (by simp)⟩
  obtain ⟨done, f, buf, heq, hf, happ⟩ := hloop samples [] [] _ (spilled_create plan.staging)
  simp only [List.nil_append] at happ
  unfold spillRuns
  simp only [heq]
  split_ifs with hnil
  · rw [hnil, List.append_nil] at happ
    exact happ ▸ hf
  · exact happ ▸ hf.writeRun (stableSortOf_sortRun buf)

/-- Chunks of the runs match chunks of their contents. -/
theorem forall₂_chunks {α β : Type} {R : α → β → Prop} (n : ℕ) {xs : List α} {ys : List β}
    (h : List.Forall₂ R xs ys) : List.Forall₂ (List.Forall₂ R) (chunks n xs) (chunks n ys) := by
  induction hk : xs.length using Nat.strong_induction_on generalizing xs ys with
  | _ k ih =>
    cases h with
    | nil => simp [chunks]
    | @cons x y xs ys hxy h =>
      rw [chunks, chunks]
      refine .cons (.cons hxy (List.forall₂_take (n - 1) h)) ?_
      exact ih _ (by rw [← hk, List.length_drop, List.length_cons]; omega)
        (List.forall₂_drop (n - 1) h) rfl

variable (plan : SpillPlan) {runs next : RunFile}

/-- The merge of a chunk is one more run. -/
theorem Spilled.reduceChunk (h : Spilled next samples) {chunk : List (ℕ × ℕ)}
    {xss : List (List (Sample F))} (hstored : List.Forall₂ (HoldsRun runs.flush.file) chunk xss)
    (hsorted : ∀ xs ∈ xss, xs.Pairwise fun a b => a.ns ≤ b.ns) :
    ∃ next', TfTree.reduceChunk plan F runs next chunk = .ok next' ∧
      Spilled next' (samples ++ xss.flatten) := by
  obtain ⟨m, zs, hm, hstable, hloop⟩ := RunFile.mergeRuns_spec (plan.window_pos chunk.length)
    hstored hsorted
  refine ⟨next.writeRun zs, ?_, h.writeRun hstable⟩
  have happend : ∀ (zs : List (Sample F)) (f : RunFile),
      zs.foldlM (fun (next : RunFile) s => (.ok (next.append s) : Except IngestError RunFile)) f =
        .ok (zs.foldl RunFile.append f) := by
    intro zs
    induction zs with
    | nil => exact fun f => rfl
    | cons z zs ih => exact fun f => ih (f.append z)
  unfold TfTree.reduceChunk
  rw [hm]
  simp only [hloop, happend]
  rfl

/-- A reduce pass keeps the samples. -/
theorem Spilled.reducePass (h : Spilled runs samples) :
    ∃ next, TfTree.reducePass plan F runs = .ok next ∧ Spilled next samples := by
  obtain ⟨xss, hstores, hsorted, horder⟩ := h
  have hfile : runs.flush.file = runs.file := by
    rw [runs.flush_bytes.1, hstores.flushed, List.append_nil]
  have hchunks := forall₂_chunks plan.fanIn (hfile.symm ▸ hstores.runs)
  have hloop : ∀ (cs : List (List (ℕ × ℕ))) (yss : List (List (List (Sample F)))),
      List.Forall₂ (List.Forall₂ (HoldsRun runs.flush.file)) cs yss →
      (∀ ys ∈ yss, ∀ xs ∈ ys, xs.Pairwise fun a b => a.ns ≤ b.ns) →
      ∀ (next : RunFile) (done : List (Sample F)), Spilled next done →
      ∃ next', cs.foldlM (TfTree.reduceChunk plan F runs) next = .ok next' ∧
        Spilled next' (done ++ (yss.map List.flatten).flatten) := by
    intro cs yss hcs
    induction hcs with
    | nil => exact fun _ next done hnext => ⟨next, rfl, by simpa using hnext⟩
    | @cons c ys cs yss hc hcs ih =>
      intro hys next done hnext
      obtain ⟨next₁, hnext₁, hspilled⟩ := hnext.reduceChunk plan hc (hys ys List.mem_cons_self)
      obtain ⟨next', hnext', hall⟩ :=
        ih (fun ys hmem => hys ys (List.mem_cons_of_mem _ hmem)) next₁ _ hspilled
      refine ⟨next', ?_, by simpa using hall⟩
      rw [List.foldlM_cons, hnext₁]
      exact hnext'
  have hflatten : ((chunks plan.fanIn xss).map List.flatten).flatten = xss.flatten := by
    rw [← List.flatten_flatten, flatten_chunks]
  have hmem : ∀ ys ∈ chunks plan.fanIn xss, ∀ xs ∈ ys, xs.Pairwise fun a b => a.ns ≤ b.ns := by
    intro ys hys xs hxs
    refine hsorted xs ?_
    rw [← flatten_chunks plan.fanIn xss]
    exact List.mem_flatten.mpr ⟨ys, hys, hxs⟩
  obtain ⟨next, hnext, zss, hz, hzsorted, hzorder⟩ :=
    hloop _ _ hchunks hmem _ [] (spilled_create plan.staging)
  rw [List.nil_append, hflatten] at hzorder
  exact ⟨next, hnext, zss, hz, hzsorted, hzorder.trans horder⟩

/-- All reduce passes keep the samples. -/
theorem Spilled.reduce (h : Spilled runs samples) :
    ∃ runs', TfTree.reduce plan F runs = .ok runs' ∧ Spilled runs' samples := by
  induction hk : runs.runs.length using Nat.strong_induction_on generalizing runs with
  | _ k ih =>
    rw [TfTree.reduce]
    by_cases hlt : plan.fanIn < runs.runs.length
    · obtain ⟨next, hnext, hspilled⟩ := h.reducePass plan
      rw [dif_pos hlt]
      split
      · next e heq => rw [hnext] at heq; cases heq
      · next next' heq =>
        rw [hnext] at heq
        cases heq
        exact ih _ (hk ▸ reducePass_runs_lt hlt hnext) hspilled rfl
    · rw [dif_neg hlt]
      exact ⟨runs, rfl, h⟩

end Runs

/-! ## The pushes -/

section Pushes

variable {σ : Type} (push : σ → Sample F → Except PushError σ)

/-- A sample is held back until the next one shows whether it is a duplicate. -/
theorem foldlM_delay (zs : List (Sample F)) (p : Sample F) (st : Filled σ) :
    (zs.foldlM (delayStep push) (some p, st) >>= delayEnd push) = fillSorted push st (p :: zs) := by
  induction zs generalizing p st with
  | nil =>
    show pushSample push st p = _
    unfold fillSorted
    rw [if_neg (by simp)]
    cases pushSample push st p with
    | error e => rfl
    | ok st => rfl
  | cons z zs ih =>
    rw [List.foldlM_cons]
    unfold fillSorted
    by_cases hdup : p.stamp = z.stamp
    · rw [if_pos (by simp [hdup])]
      simp only [delayStep, if_pos hdup]
      exact ih z _
    · rw [if_neg (by simpa using Ne.symm hdup)]
      simp only [delayStep, if_neg hdup]
      cases pushSample push st p with
      | error e => rfl
      | ok st => exact ih z st

variable [LeBytes F]

/-- The merge of a spill can be read, and the delayed pushes of it are those of the fill in
    memory. -/
theorem delayed_merge (plan : SpillPlan) (samples : List (Sample F)) :
    ∃ runs merged, reduce plan F (spillRuns plan samples) = .ok runs ∧
      runs.mergeRuns (F := F) runs.runs (plan.window runs.runs.length) = .ok merged ∧
      ∀ {σ : Type} (push : σ → Sample F → Except PushError σ) (st : Filled σ),
        (match merged.forEach (delayStep push) (none, st) with
          | .error e => .error e
          | .ok st => delayEnd push st) = fillInMemory push st samples := by
  obtain ⟨runs, hruns, xss, hstores, hsorted, horder⟩ :=
    (spilled_spillRuns plan samples).reduce plan
  have hfile : runs.flush.file = runs.file := by
    rw [runs.flush_bytes.1, hstores.flushed, List.append_nil]
  obtain ⟨merged, zs, hmerged, hstable, hloop⟩ := RunFile.mergeRuns_spec
    (plan.window_pos runs.runs.length) (hfile.symm ▸ hstores.runs) hsorted
  have hzs : zs = sortRun samples :=
    (hstable.of_sameOrder horder).unique (stableSortOf_sortRun samples)
  refine ⟨runs, merged, hruns, hmerged, fun push st => ?_⟩
  have hbind : (match zs.foldlM (delayStep push) (none, st) with
      | .error e => .error e
      | .ok st => delayEnd push st) =
      (zs.foldlM (delayStep push) (none, st) >>= delayEnd push) := by
    cases zs.foldlM (delayStep push) (none, st) with
    | error e => rfl
    | ok st => rfl
  rw [hloop, hbind, fillInMemory, ← hzs]
  cases zs with
  | nil => rfl
  | cons z zs => exact foldlM_delay push zs z st

/-- **Main theorem.** Whatever the sizes of runs, merges and windows are, the spilled fill
    pushes what the in-memory fill pushes, in the same order and with the same counts. -/
theorem fillSpilled_eq_fillInMemory (plan : SpillPlan) (st : Filled σ) (samples : List (Sample F)) :
    fillSpilled plan push st samples = fillInMemory push st samples := by
  obtain ⟨runs, merged, hruns, hmerged, hpushed⟩ := delayed_merge plan samples
  unfold fillSpilled
  rw [hruns]
  simp only [hmerged]
  exact hpushed push st

end Pushes

end TfTree
