import Mathlib
import TfTree.Ingest.Source

/-!
# The callback of a read

`read_tf` (`tf_tree_ingest/src/source.rs`) hands every transform to a callback that may keep
variables of its own and may stop the read. What it hands over does not depend on the callback.

Results:
* `readTf_follows`: a read does what the read without refusals does, up to the first refusal.
* `readTfWith_eq`: a read with a stateful callback is the fold of the callback over the
  transforms of the recording.
-/

namespace TfTree.Mcap

open Data Cdr

section Follows

variable {F ε : Type} {verdict : List (RawRecord F) → RawRecord F → Except ε Unit}
  {old new recs recs' : List (RawRecord F)} {st : ReadState F}

/-- The callback that takes every record. -/
def takeAll (F ε : Type) : List (RawRecord F) → RawRecord F → Except ε Unit := fun _ _ => .ok ()

/-- The first refusal among further calls behind the calls `old`. -/
def firstRefusal (verdict : List (RawRecord F) → RawRecord F → Except ε Unit) :
    List (RawRecord F) → List (RawRecord F) → Option ε
  | _, [] => none
  | old, rec :: recs =>
    match verdict old rec with
    | .error e => some e
    | .ok () => firstRefusal verdict (old ++ [rec]) recs

theorem firstRefusal_append :
    firstRefusal verdict old (recs ++ recs') =
      (firstRefusal verdict old recs).or (firstRefusal verdict (old ++ recs) recs') := by
  induction recs generalizing old with
  | nil => simp [firstRefusal]
  | cons rec recs ih =>
    rw [List.cons_append, firstRefusal, firstRefusal]
    rcases verdict old rec with e | u
    · rfl
    · show firstRefusal verdict (old ++ [rec]) (recs ++ recs') = _
      rw [ih, List.append_assoc]
      rfl

/-- From the state `st`, `call` does what `free` does, up to the first refusal. -/
def Follows (verdict : List (RawRecord F) → RawRecord F → Except ε Unit) (st : ReadState F)
    (call free : Except (ReadError ε) Unit × ReadState F) : Prop :=
  ∃ new, free.2.emitted = st.emitted ++ new ∧
    (firstRefusal verdict st.emitted new = none → call = free) ∧
    ∀ e, firstRefusal verdict st.emitted new = some e → call.1 = .error (.callback e)

/-- What hands nothing over is the same. -/
theorem Follows.same {r : Except (ReadError ε) Unit × ReadState F}
    (h : r.2.emitted = st.emitted) : Follows verdict st r r := by
  refine ⟨[], by rw [h, List.append_nil], fun _ => rfl, fun e he => ?_⟩
  cases he

/-- One call behind another. -/
theorem Follows.andThen {call free : Except (ReadError ε) Unit × ReadState F}
    {f g : ReadState F → Except (ReadError ε) Unit × ReadState F}
    (h : Follows verdict st call free) (hnext : ∀ t, Follows verdict t (f t) (g t)) :
    Follows verdict st (Mcap.andThen call f) (Mcap.andThen free g) := by
  obtain ⟨new, hnew, hsame, hrefused⟩ := h
  rcases free with ⟨e | u, t⟩
  · refine ⟨new, hnew, fun hnone => ?_, fun e' he' => ?_⟩
    · rw [hsame hnone]
      rfl
    · rcases call with ⟨r, s⟩
      cases hrefused e' he'
      rfl
  · obtain ⟨more, hmore, hsame', hrefused'⟩ := hnext t
    have hbehind : t.emitted = st.emitted ++ new := hnew
    rw [hbehind] at hmore hsame' hrefused'
    refine ⟨new ++ more, by rw [← List.append_assoc]; exact hmore, ?_, ?_⟩
    · intro hnone
      rw [firstRefusal_append, Option.or_eq_none_iff] at hnone
      rw [hsame hnone.1]
      exact hsame' hnone.2
    · intro e he
      rw [firstRefusal_append] at he
      cases hfirst : firstRefusal verdict st.emitted new with
      | none =>
        rw [hfirst, Option.none_or] at he
        rw [hsame hfirst]
        exact hrefused' e he
      | some e' =>
        rw [hfirst, Option.some_or] at he
        cases he
        rcases call with ⟨r, s⟩
        cases hrefused _ hfirst
        rfl

/-- Counts of the reader in front of a call do not matter. -/
theorem Follows.counted {call free : Except (ReadError ε) Unit × ReadState F} {t : ReadState F}
    (h : Follows verdict t call free) (ht : t.emitted = st.emitted) :
    Follows verdict st call free := by
  unfold Follows at h ⊢
  rwa [ht] at h

end Follows

section Read

variable {F ε : Type} {crates : Crates} {roles : TopicRoles}
  {verdict : List (RawRecord F) → RawRecord F → Except ε Unit} {policy : ReadPolicy}

theorem emit_follows (rec : RawRecord F) (st : ReadState F) :
    Follows verdict st (emit verdict rec st) (emit (takeAll F ε) rec st) := by
  rw [emit, emit]
  rcases hverdict : verdict st.emitted rec with e | u
  · have hone : firstRefusal verdict st.emitted [rec] = some e := by rw [firstRefusal, hverdict]
    refine ⟨[rec], rfl, fun hnone => ?_, fun e' he => ?_⟩
    · cases hone.symm.trans hnone
    · cases hone.symm.trans he
      rfl
  · have hone : firstRefusal verdict st.emitted [rec] = none := by
      rw [firstRefusal, hverdict]
      rfl
    refine ⟨[rec], rfl, fun _ => rfl, fun e' he => ?_⟩
    cases hone.symm.trans he

theorem emitAll_follows (recs : List (RawRecord F)) (st : ReadState F) :
    Follows verdict st (emitAll verdict recs st) (emitAll (takeAll F ε) recs st) := by
  induction recs generalizing st with
  | nil => exact .same rfl
  | cons rec recs ih => exact (emit_follows rec st).andThen ih

variable [LeBytes F]

theorem handleRecord_follows (rec : Record) (st : ReadState F) :
    Follows verdict st (handleRecord roles verdict rec st)
      (handleRecord roles (takeAll F ε) rec st) := by
  cases rec with
  | schema id name =>
    apply Follows.same
    simp only [handleRecord]
    split
    · rfl
    · rfl
  | channel id schemaId topic messageEncoding =>
    apply Follows.same
    simp only [handleRecord]
    split_ifs
    all_goals rfl
  | message channelId logTime data =>
    simp only [handleRecord]
    rcases st.book.channels channelId with - | role
    · exact .same rfl
    · rcases decodeTfMessage (F := F) data with e | ts
      · exact .same rfl
      · exact emitAll_follows _ st
  | other => exact .same rfl

theorem handle_follows (opcode : UInt8) (body : List UInt8) (st : ReadState F) :
    Follows verdict st (handle crates roles verdict opcode body st)
      (handle crates roles (takeAll F ε) opcode body st) := by
  simp only [handle]
  rcases crates.parseRecord opcode body with e | rec
  · exact .same rfl
  · exact handleRecord_follows rec st

theorem runAll_follows (fs : List Frame) (st : ReadState F) :
    Follows verdict st (runAll (handle crates roles verdict) fs st)
      (runAll (handle crates roles (takeAll F ε)) fs st) := by
  induction fs generalizing st with
  | nil => exact .same rfl
  | cons f fs ih => exact (handle_follows f.tag f.body st).andThen ih

omit [LeBytes F] in
theorem noteOrFail_emitted (fault : ChunkFault (ReadError ε)) (ordinal : ℕ) (onBad : OnBadChunk)
    (span : Option (ℕ × ℕ)) (st : ReadState F) :
    (noteOrFail fault ordinal onBad span st).2.emitted = st.emitted := by
  cases fault with
  | unsupported codec => rfl
  | callback e => rfl
  | bad kind =>
    cases onBad with
    | skip => rfl
    | halt => rfl

/-- A chunk is its whole records, and then what is behind them. -/
theorem readChunk_records {body records : List UInt8} {complete : Bool} {ordinal : ℕ}
    {st : ReadState F}
    (h : chunkRecords (E := ReadError ε) crates.toCodecs policy.limits body complete =
      .ok records) :
    readChunk crates roles verdict policy body complete ordinal st =
      andThen (runAll (handle crates roles verdict) (framesOf records) st) fun st =>
        if tailOf records = [] ∨ !complete then (.ok (), st)
        else noteOrFail (framing (0 + (encodeFrames (framesOf records)).length)) ordinal
          policy.onBad (chunkSpan body) st := by
  rw [readChunk, h]
  simp only [forEachRecord_eq]
  rcases runAll (handle crates roles verdict) (framesOf records) st with ⟨e | u, t⟩
  · rfl
  · show _ = if tailOf records = [] ∨ !complete then _ else _
    split_ifs
    · rfl
    · rfl

theorem readChunk_follows (body : List UInt8) (complete : Bool) (ordinal : ℕ)
    (st : ReadState F) :
    Follows verdict st (readChunk crates roles verdict policy body complete ordinal st)
      (readChunk crates roles (takeAll F ε) policy body complete ordinal st) := by
  cases h : chunkRecords (E := ReadError ε) crates.toCodecs policy.limits body complete with
  | error fault =>
    rw [readChunk, readChunk, h]
    exact .same (noteOrFail_emitted ..)
  | ok records =>
    rw [readChunk_records h, readChunk_records h]
    refine (runAll_follows _ st).andThen fun t => .same ?_
    split_ifs
    · rfl
    · exact noteOrFail_emitted ..

theorem readBody_follows (opcode : UInt8) (body : List UInt8) (complete : Bool) (ordinal : ℕ)
    (st : ReadState F) :
    Follows verdict st (readBody crates roles verdict policy opcode body complete ordinal st)
      (readBody crates roles (takeAll F ε) policy opcode body complete ordinal st) := by
  rw [readBody, readBody]
  split_ifs
  · exact readChunk_follows ..
  · exact handle_follows ..
  · exact .same rfl

theorem readLoop_follows {fileLen fuel ordinal : ℕ} {rest : List UInt8} (st : ReadState F) :
    Follows verdict st (readLoop crates roles verdict policy fileLen fuel ordinal rest st)
      (readLoop crates roles (takeAll F ε) policy fileLen fuel ordinal rest st) := by
  induction fuel generalizing ordinal rest st with
  | zero => exact .same rfl
  | succ fuel ih =>
    rw [readLoop, readLoop]
    dsimp only
    split_ifs with hend hmagic hshort hlarge hneeds hlost hsync
    · exact .same rfl
    · exact .same rfl
    · exact .same rfl
    · exact .same rfl
    · exact .same rfl
    · exact .same rfl
    · exact (ih _).counted rfl
    all_goals
      -- a body, and the rest of the file behind a whole one
      refine Follows.counted (Follows.andThen (readBody_follows ..) fun t => ?_) rfl
      first
      | exact ih t
      | exact .same rfl

/-- A read does what the read without refusals does, up to the first refusal. -/
theorem readTf_follows (verdict : List (RawRecord F) → RawRecord F → Except ε Unit)
    (file : List UInt8) :
    Follows verdict (.start F) (readTf crates roles verdict policy file)
      (readTf crates roles (takeAll F ε) policy file) := by
  rw [readTf, readTf]
  split_ifs
  · exact .same rfl
  · exact .same rfl
  · exact readLoop_follows _

end Read

/-! ## A callback with variables -/

section Step

variable {F ε σ : Type}

/-- What a callback answers that keeps the variables `σ`. -/
def verdictOf (step : σ → RawRecord F → Except ε σ) (init : σ) (calls : List (RawRecord F))
    (rec : RawRecord F) : Except ε Unit :=
  (calls.foldlM step init).bind fun s => (step s rec).map fun _ => ()

variable [LeBytes F] (crates : Crates) (roles : TopicRoles) (policy : ReadPolicy)

/-- `read_tf` with a callback that keeps the variables `σ`: the counts, and the variables at
the end. -/
def readTfWith (file : List UInt8) (step : σ → RawRecord F → Except ε σ) (init : σ) :
    Except (ReadError ε) (SkipCounts × σ) :=
  match readTf crates roles (verdictOf step init) policy file with
  | (.error e, _) => .error e
  | (.ok (), st) =>
    ((st.emitted.foldlM step init).mapError .callback).map fun s => (st.skips, s)

end Step

section Fold

variable {F ε σ : Type} {step : σ → RawRecord F → Except ε σ} {init s : σ}
  {old new : List (RawRecord F)}

/-- The callback refuses where its fold fails. -/
theorem firstRefusal_verdictOf (hold : old.foldlM step init = .ok s) :
    firstRefusal (verdictOf step init) old new =
      match new.foldlM step s with
      | .error e => some e
      | .ok _ => none := by
  induction new generalizing old s with
  | nil => rfl
  | cons rec new ih =>
    have hverdict : verdictOf step init old rec = (step s rec).map fun _ => () := by
      rw [verdictOf, hold]
      rfl
    rw [firstRefusal, hverdict, List.foldlM_cons]
    cases hstep : step s rec with
    | error e => rfl
    | ok s' =>
      refine ih ?_
      rw [List.foldlM_append, hold]
      show List.foldlM step s [rec] = _
      rw [List.foldlM_cons, hstep]
      rfl

variable [LeBytes F] {crates : Crates} {roles : TopicRoles} {policy : ReadPolicy}

/-- A read with a callback that keeps variables is the fold of the callback over the
transforms of the recording. -/
theorem readTfWith_eq (file : List UInt8) (step : σ → RawRecord F → Except ε σ) (init : σ) :
    readTfWith crates roles policy file step init =
      match (readTf crates roles (takeAll F ε) policy file).2.emitted.foldlM step init with
      | .error e => .error (.callback e)
      | .ok s => (readTf crates roles (takeAll F ε) policy file).1.map fun _ =>
          ((readTf crates roles (takeAll F ε) policy file).2.skips, s) := by
  have hfollows : Follows (verdictOf step init) (.start F)
      (readTf crates roles (verdictOf step init) policy file)
      (readTf crates roles (takeAll F ε) policy file) := readTf_follows _ _
  obtain ⟨new, hnew, hsame, hrefused⟩ := hfollows
  have hstart : (ReadState.start F).emitted.foldlM step init = .ok init := rfl
  rw [firstRefusal_verdictOf hstart] at hsame hrefused
  rw [show (readTf crates roles (takeAll F ε) policy file).2.emitted = new from hnew, readTfWith]
  cases hfold : new.foldlM step init with
  | error e =>
    rw [hfold] at hrefused
    have herror := hrefused e rfl
    generalize readTf crates roles (verdictOf step init) policy file = call at herror
    rcases call with ⟨r, st⟩
    cases herror
    rfl
  | ok s =>
    rw [hfold] at hsame
    rw [hsame rfl]
    have hemitted : (readTf crates roles (takeAll F ε) policy file).2.emitted = new := hnew
    generalize readTf crates roles (takeAll F ε) policy file = free at hemitted
    rcases free with ⟨e | u, st⟩
    · rfl
    · show ((st.emitted.foldlM step init).mapError _).map _ = _
      rw [show st.emitted = new from hemitted, hfold]
      rfl

end Fold

end TfTree.Mcap
