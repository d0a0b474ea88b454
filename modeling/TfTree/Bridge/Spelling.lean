import Mathlib
import TfTree.Bridge.Run
import TfTree.Bridge.WordIndex

/-!
# The table of spellings

`Ingest::resolve` skips the normalizer for a pair of names it has seen. It does not show.

Results:
* `NameNormalizer.Knows.normalize`: normalizing a name that was seen only counts its slash.
* `Ingest.Spelled.resolve_agrees`: a sample is resolved as by normalizing its names and
  looking them up, with the same names noted.
* `spellings_do_not_show`: so every run answers alike.
-/

namespace TfTree.Bridge

open Data

variable {F : Type}

/-! ## Names that were seen -/

namespace NameNormalizer

variable {n : NameNormalizer} {raw : String}

/-- Whether a name is seen for the first time, as far as names are tracked. -/
def isNew (n : NameNormalizer) (raw : String) : Bool :=
  !(n.seen.contains raw || decide (n.seen.size ≥ maxTrackedNames))

theorem slashes_eq (raw : String) :
    Ingest.slashes raw = if (stripSlash raw).2 = true then 1 else 0 := by
  unfold Ingest.slashes stripSlash
  cases raw.toList with
  | nil => rfl
  | cons c rest =>
    by_cases hc : c = '/'
    · subst hc
      rfl
    · rw [List.head?_cons, if_neg (by simpa using hc)]
      split
      · rename_i heq
        cases heq
        exact absurd rfl hc
      · rfl

/-- Normalizing a good name. -/
theorem normalize_of_good (h : (nameOf n.tfPrefix raw).isSome) :
    (n.normalize raw).1.isSome ∧ (n.normalize raw).2.tfPrefix = n.tfPrefix ∧
      (n.normalize raw).2.seen = (if n.isNew raw = true then n.seen.insert raw else n.seen) ∧
      (n.isNew raw = false → (n.normalize raw).2.remaps = n.remaps) ∧
      (n.normalize raw).2.stripped = n.stripped + Ingest.slashes raw := by
  have hgood : ¬(raw = "" ∨ (stripSlash raw).1 = "") := by
    intro hbad
    unfold nameOf at h
    rw [if_pos hbad] at h
    cases h
  have hnorm : n.normalize raw = (some ⟨(apply n.tfPrefix (stripSlash raw).1).1, (stripSlash raw).2,
      (apply n.tfPrefix (stripSlash raw).1).2, n.isNew raw⟩, ⟨n.tfPrefix,
        if n.isNew raw = true then n.seen.insert raw else n.seen,
        if (n.isNew raw && ((stripSlash raw).2 || (apply n.tfPrefix (stripSlash raw).1).2)) = true
          then n.remaps ++ [(raw, (apply n.tfPrefix (stripSlash raw).1).1)] else n.remaps,
        if (stripSlash raw).2 = true then n.stripped + 1 else n.stripped⟩) := by
    unfold normalize
    rw [if_neg fun h => hgood (Or.inl h)]
    dsimp only
    rw [if_neg fun h => hgood (Or.inr h)]
    rfl
  rw [hnorm]
  refine ⟨rfl, rfl, rfl, fun hold => ?_, ?_⟩
  · rw [hold, Bool.false_and]
    rfl
  · rw [slashes_eq]
    split_ifs <;> rfl

/-- A name that is refused leaves the normalizer. -/
theorem normalize_of_bad (h : nameOf n.tfPrefix raw = none) : (n.normalize raw).2 = n := by
  unfold nameOf at h
  unfold normalize
  by_cases hraw : raw = ""
  · rw [if_pos hraw]
  · rw [if_neg hraw]
    dsimp only
    rw [if_pos]
    by_contra hbody
    rw [if_neg (by rintro (h' | h'); exacts [hraw h', hbody h'])] at h
    cases h

/-- A name was normalized before: it is good, and nothing is new about it. -/
structure Knows (n : NameNormalizer) (raw : String) : Prop where
  good : (nameOf n.tfPrefix raw).isSome
  old : n.isNew raw = false

/-- Normalizing a known name only counts its slash. -/
theorem Knows.normalize (h : n.Knows raw) :
    (n.normalize raw).2 = n.noteStripped (Ingest.slashes raw) := by
  obtain ⟨-, hpre, hseen, hremaps, hstripped⟩ := normalize_of_good h.good
  rw [h.old, if_neg (by decide)] at hseen
  have hremaps := hremaps h.old
  unfold NameNormalizer.noteStripped
  cases hn : (n.normalize raw).2 with
  | mk tfPrefix seen remaps stripped =>
    rw [hn] at hpre hseen hremaps hstripped
    cases hpre
    cases hseen
    cases hremaps
    cases hstripped
    rfl

theorem isNew_eq_false_iff :
    n.isNew raw = false ↔ raw ∈ n.seen ∨ maxTrackedNames ≤ n.seen.size := by
  unfold isNew
  rw [Bool.not_eq_false', Bool.or_eq_true, decide_eq_true_iff, Std.TreeSet.contains_iff_mem]

/-- What was seen stays seen. -/
theorem isNew_normalize (h : n.isNew raw = false) (raw' : String) :
    (n.normalize raw').2.isNew raw = false := by
  cases hgood : nameOf n.tfPrefix raw' with
  | none =>
    rw [normalize_of_bad hgood]
    exact h
  | some name =>
    have hsome : (nameOf n.tfPrefix raw').isSome := by rw [hgood]; rfl
    obtain ⟨-, -, hseen, -, -⟩ := normalize_of_good hsome
    rw [isNew_eq_false_iff] at h ⊢
    rw [hseen]
    split_ifs
    · rcases h with h | h
      · exact Or.inl (Std.TreeSet.mem_insert.mpr (Or.inr h))
      · exact Or.inr (h.trans Std.TreeSet.size_le_size_insert)
    · exact h

/-- A good name is known once it was normalized. -/
theorem knows_normalize (h : (nameOf n.tfPrefix raw).isSome) : (n.normalize raw).2.Knows raw := by
  obtain ⟨-, hpre, hseen, -, -⟩ := normalize_of_good h
  refine ⟨by rw [hpre]; exact h, ?_⟩
  by_cases hnew : n.isNew raw = true
  · rw [isNew_eq_false_iff, hseen, if_pos hnew]
    exact Or.inl Std.TreeSet.mem_insert_self
  · exact isNew_normalize (by simpa using hnew) raw

theorem Knows.after_normalize (h : n.Knows raw) (raw' : String) :
    (n.normalize raw').2.Knows raw :=
  ⟨by rw [normalize_tfPrefix]; exact h.good, isNew_normalize h.old raw'⟩

theorem Knows.noteStripped (h : n.Knows raw) (k : ℕ) : (n.noteStripped k).Knows raw :=
  ⟨h.good, h.old⟩

end NameNormalizer

/-! ## A pipeline without the table -/

/-- How a pipeline resolves the names of a sample. -/
abbrev Resolver (F : Type) := Ingest F → Sample F → Option (Resolved × Ingest F)

namespace Ingest

/-- `Ingest::resolve` (lines 295–313), over any insertion. -/
def resolveBy (ins : EdgeIndex ℕ → String → String → ℕ → Option (EdgeIndex ℕ)) : Resolver F :=
  fun s sample => do
    let rp := sample.frameId
    let rc := sample.childFrameId
    match ← s.raw.get rp rc with
    | some slot => return (.declared slot, { s with
        names := s.names.noteStripped (slashes rp + slashes rc) })
    | none =>
      let (parent, names) := s.names.normalize rp
      let (child, names) := names.normalize rc
      let s := { s with names := names }
      match parent, child with
      | some parent, some child =>
        match ← s.statics.resolve parent.name child.name with
        | some slot =>
          let raw ← ins s.raw rp rc slot
          return (.declared slot, { s with raw := raw })
        | none => return (.undeclared parent.name child.name, s)
      | _, _ => return (.badName, s)

/-- What `resolve` is to do: both names are normalized, and the pair is looked up among the
    declared edges. -/
def resolveNames : Resolver F :=
  fun s sample => do
    let (parent, names) := s.names.normalize sample.frameId
    let (child, names) := names.normalize sample.childFrameId
    let s := { s with names := names }
    match parent, child with
    | some parent, some child =>
      match ← s.statics.resolve parent.name child.name with
      | some slot => return (.declared slot, s)
      | none => return (.undeclared parent.name child.name, s)
    | _, _ => return (.badName, s)

/-- The pipeline that does not remember spellings. -/
def plain (s : Ingest F) : Ingest F := { s with raw := .withCapacity 0 }

/-- An answer, and the state without its spellings. -/
def plainly {α : Type} (x : Option (α × Ingest F)) : Option (α × Ingest F) :=
  x.map fun r => (r.1, r.2.plain)

/-- What no step behind the names changes. -/
structure Kept (s s' : Ingest F) : Prop where
  raw : s'.raw = s.raw
  names : s'.names = s.names
  index : s'.statics.index = s.statics.index

variable {s s' : Ingest F} {a : Action F}

theorem closeStartupWindow_plain (s : Ingest F) :
    s.plain.closeStartupWindow = plainly s.closeStartupWindow := by
  unfold closeStartupWindow
  by_cases hopen : s.startupWindowOpen = true
  · rw [if_pos hopen, if_pos (show s.plain.startupWindowOpen = true from hopen)]
    dsimp only
    by_cases hpol : s.authority.policy ≠ .strict
    · rw [if_pos hpol, if_pos (show s.plain.authority.policy ≠ .strict from hpol)]
      rfl
    · rw [if_neg hpol, if_neg (show ¬s.plain.authority.policy ≠ .strict from hpol)]
      show (s.authority.conflicts.bind _) = plainly (s.authority.conflicts.bind _)
      cases s.authority.conflicts with
      | none => rfl
      | some rows =>
        simp only [Option.bind_some]
        show (s.statics.conflictsByEdge.bind _) = plainly (s.statics.conflictsByEdge.bind _)
        cases s.statics.conflictsByEdge with
        | none => rfl
        | some edges =>
          simp only [Option.bind_some]
          split_ifs <;> rfl
  · rw [if_neg hopen, if_neg (show ¬s.plain.startupWindowOpen = true from hopen)]
    rfl

variable [Floats F] {topic : Topic} {slot : ℕ} {sample : Sample F} {publisher : Publisher}

theorem offerStatic_plain (s : Ingest F) (slot : ℕ) (sample : Sample F) (publisher : Publisher) :
    s.plain.offerStatic slot sample publisher = plainly (s.offerStatic slot sample publisher) := by
  unfold offerStatic
  show (s.statics.observeStaticAt _ _ _).bind _ = plainly ((s.statics.observeStaticAt _ _ _).bind _)
  cases s.statics.observeStaticAt slot sample.pose publisher with
  | none => rfl
  | some r =>
    obtain ⟨verdict, statics⟩ := r
    simp only [Option.bind_some]
    cases verdict with
    | kindChanged declared => rfl
    | _ =>
      show (statics.namesOf slot).bind _ = plainly ((statics.namesOf slot).bind _)
      cases statics.namesOf slot <;> rfl

theorem offerClock_plain (s : Ingest F) (slot : ℕ) (sample : Sample F) (publisher : Publisher) :
    s.plain.offerClock slot sample publisher = plainly (s.offerClock slot sample publisher) := by
  unfold offerClock
  show (s.offsets.observe _ _ _).bind _ = plainly ((s.offsets.observe _ _ _).bind _)
  cases s.offsets.observe publisher.key sample.stampNanos sample.received with
  | none => rfl
  | some r =>
    obtain ⟨common, offsets⟩ := r
    simp only [Option.bind_some]
    cases common with
    | some common =>
      unfold applyClockReset
      dsimp only [plain]
      cases s.clock.onReset <;> rfl
    | none =>
      show (s.clocks[slot]?).bind _ = plainly ((s.clocks[slot]?).bind _)
      cases s.clocks[slot]? with
      | none => rfl
      | some guard =>
        simp only [Option.bind_some]
        generalize guard.observe sample.stampNanos = r
        obtain ⟨verdict, guard'⟩ := r
        dsimp only
        show (setAt s.clocks slot guard').bind _ = plainly ((setAt s.clocks slot guard').bind _)
        cases setAt s.clocks slot guard' with
        | none => rfl
        | some clocks =>
          simp only [Option.bind_some]
          cases verdict with
          | forward =>
            show (s.statics.namesOf slot).bind _ = plainly ((s.statics.namesOf slot).bind _)
            cases s.statics.namesOf slot <;> rfl
          | jitter byNanos => rfl
          | reset byNanos policy => rfl

theorem offerDynamic_plain (s : Ingest F) (slot : ℕ) (sample : Sample F) (publisher : Publisher) :
    s.plain.offerDynamic slot sample publisher =
      plainly (s.offerDynamic slot sample publisher) := by
  unfold offerDynamic
  show (s.statics.namesOf slot).bind _ = plainly ((s.statics.namesOf slot).bind _)
  cases s.statics.namesOf slot with
  | none => rfl
  | some e =>
    simp only [Option.bind_some]
    show (s.authority.admitAt slot publisher).bind _ =
      plainly ((s.authority.admitAt slot publisher).bind _)
    cases s.authority.admitAt slot publisher with
    | none => rfl
    | some r =>
      obtain ⟨verdict, authority⟩ := r
      simp only [Option.bind_some]
      cases verdict with
      | accept => exact offerClock_plain { s with authority := authority } slot sample publisher
      | reject owner intruder firstTime => rfl
      | fatal owner intruder firstTime => rfl

theorem offerDeclared_plain (s : Ingest F) (topic : Topic) (slot : ℕ) (sample : Sample F)
    (publisher : Publisher) : s.plain.offerDeclared topic slot sample publisher =
      plainly (s.offerDeclared topic slot sample publisher) := by
  unfold offerDeclared
  show (s.statics.kindAt slot).bind _ = plainly ((s.statics.kindAt slot).bind _)
  cases s.statics.kindAt slot with
  | none => rfl
  | some kind =>
    simp only [Option.bind_some]
    cases topic with
    | tfStatic => exact offerStatic_plain s slot sample publisher
    | tf =>
      dsimp only
      by_cases hk : kind = .static
      · rw [if_pos hk, if_pos hk]
        rfl
      · rw [if_neg hk, if_neg hk]
        exact offerDynamic_plain s slot sample publisher

/-! ### What is kept -/

omit [Floats F] in
theorem Kept.refl (s : Ingest F) : s.Kept s := ⟨rfl, rfl, rfl⟩

omit [Floats F] in
theorem closeStartupWindow_kept {o : Option (Action F)} (h : s.closeStartupWindow = some (o, s')) :
    s.Kept s' := by
  obtain ⟨rfl, -⟩ := closeStartupWindow_eq h
  exact ⟨rfl, rfl, rfl⟩

omit [Floats F] in
theorem applyClockReset_kept (s : Ingest F) (deltaNanos : ℤ) (evidence : ClockEvidence) :
    s.Kept (s.applyClockReset deltaNanos evidence).2 := by
  unfold applyClockReset
  dsimp only
  cases s.clock.onReset <;> exact ⟨rfl, rfl, rfl⟩

theorem observeStaticAt_index {st st' : StaticStore F} {verdict : StaticVerdict F}
    (h : st.observeStaticAt slot sample.pose publisher = some (verdict, st')) :
    st'.index = st.index := by
  unfold StaticStore.observeStaticAt at h
  obtain ⟨kind, -, h⟩ := Option.bind_eq_some_iff.mp h
  split_ifs at h
  · cases h
    rfl
  · obtain ⟨value, -, h⟩ := Option.bind_eq_some_iff.mp h
    cases value with
    | none =>
      obtain ⟨kinds, -, h⟩ := Option.bind_eq_some_iff.mp h
      obtain ⟨values, -, h⟩ := Option.bind_eq_some_iff.mp h
      cases h
      rfl
    | some value =>
      obtain ⟨existing, owner⟩ := value
      dsimp only at h
      split_ifs at h
      · cases h
        rfl
      · obtain ⟨seen, -, h⟩ := Option.bind_eq_some_iff.mp h
        obtain ⟨reported, -, h⟩ := Option.bind_eq_some_iff.mp h
        split_ifs at h
        · obtain ⟨firstIntruder, -, h⟩ := Option.bind_eq_some_iff.mp h
          cases h
          rfl
        · cases h
          rfl

theorem offerStatic_kept (h : s.offerStatic slot sample publisher = some (a, s')) : s.Kept s' := by
  unfold offerStatic at h
  obtain ⟨⟨verdict, statics⟩, hobs, h⟩ := Option.bind_eq_some_iff.mp h
  have hindex := observeStaticAt_index hobs
  cases verdict with
  | kindChanged declared =>
    cases h
    exact ⟨rfl, rfl, hindex⟩
  | _ =>
    obtain ⟨e, -, h⟩ := Option.bind_eq_some_iff.mp h
    cases h
    exact ⟨rfl, rfl, hindex⟩

theorem offerClock_kept (h : s.offerClock slot sample publisher = some (a, s')) : s.Kept s' := by
  unfold offerClock at h
  obtain ⟨⟨common, offsets⟩, -, h⟩ := Option.bind_eq_some_iff.mp h
  cases common with
  | some common =>
    have hkept := applyClockReset_kept { s with
      offsets := offsets
      stats := { s.stats with droppedNonMonotonic := s.stats.droppedNonMonotonic + 1 } }
      common.deltaNanos (.commonMode common.publishers)
    rw [show applyClockReset _ common.deltaNanos (.commonMode common.publishers) = (a, s') from
      Option.some_inj.mp h] at hkept
    exact ⟨hkept.raw, hkept.names, hkept.index⟩
  | none =>
    obtain ⟨guard, -, h⟩ := Option.bind_eq_some_iff.mp h
    generalize guard.observe sample.stampNanos = r at h
    obtain ⟨verdict, guard'⟩ := r
    obtain ⟨clocks, -, h⟩ := Option.bind_eq_some_iff.mp h
    cases verdict with
    | forward =>
      obtain ⟨e, -, h⟩ := Option.bind_eq_some_iff.mp h
      cases h
      exact ⟨rfl, rfl, rfl⟩
    | _ =>
      cases h
      exact ⟨rfl, rfl, rfl⟩

theorem offerDeclared_kept (h : s.offerDeclared topic slot sample publisher = some (a, s')) :
    s.Kept s' := by
  unfold offerDeclared at h
  obtain ⟨kind, -, h⟩ := Option.bind_eq_some_iff.mp h
  cases topic with
  | tfStatic => exact offerStatic_kept h
  | tf =>
    dsimp only at h
    by_cases hk : kind = .static
    · rw [if_pos hk] at h
      cases h
      exact ⟨rfl, rfl, rfl⟩
    · rw [if_neg hk] at h
      unfold offerDynamic at h
      obtain ⟨e, -, h⟩ := Option.bind_eq_some_iff.mp h
      obtain ⟨⟨verdict, authority⟩, -, h⟩ := Option.bind_eq_some_iff.mp h
      cases verdict with
      | accept =>
        have hkept := offerClock_kept (s := { s with authority := authority }) h
        exact ⟨hkept.raw, hkept.names, hkept.index⟩
      | _ =>
        cases h
        exact ⟨rfl, rfl, rfl⟩

/-! ### Names -/

/-- The spellings that are remembered are those of the slot they stand for, and were
    normalized before. -/
structure Spelled (P : EdgeIndex ℕ → Prop) (s : Ingest F) : Prop where
  table : P s.raw
  index : s.statics.index.Slots
  spelled : ∀ k slot, s.raw.Has k slot → resolvedAs s.names.tfPrefix s.keys k = .declared slot ∧
    s.names.Knows k.1 ∧ s.names.Knows k.2

variable {P : EdgeIndex ℕ → Prop}
  {ins : EdgeIndex ℕ → String → String → ℕ → Option (EdgeIndex ℕ)}

omit [Floats F] in
/-- What keeps the names and the declared edges keeps the spellings. -/
theorem Spelled.kept (hs : s.Spelled P) (h : s.Kept s') : s'.Spelled P := by
  have hkeys : s'.keys = s.keys := congrArg (fun i : EdgeIndex ℕ => i.table.keys) h.index
  refine ⟨h.raw ▸ hs.table, h.index ▸ hs.index, fun k slot hhas => ?_⟩
  rw [h.raw] at hhas
  rw [hkeys, h.names]
  exact hs.spelled k slot hhas

omit [Floats F] in
/-- Both names are normalized, in order. -/
theorem resolveNames_spec (hindex : s.statics.index.Slots) (sample : Sample F) :
    s.resolveNames sample = some (resolvedAs s.names.tfPrefix s.keys sample.edge, { s with
      names := ((s.names.normalize sample.frameId).2.normalize sample.childFrameId).2 }) := by
  have hp := s.names.normalize_eq sample.frameId
  have hc := (s.names.normalize sample.frameId).2.normalize_eq sample.childFrameId
  rw [NameNormalizer.normalize_tfPrefix] at hc
  unfold resolveNames resolvedAs Sample.edge
  dsimp only
  rw [← hp, ← hc]
  cases h₁ : (s.names.normalize sample.frameId).1 with
  | none => rfl
  | some parent =>
    cases h₂ : ((s.names.normalize sample.frameId).2.normalize sample.childFrameId).1 with
    | none => rfl
    | some child =>
      dsimp only [Option.map_some]
      unfold StaticStore.resolve
      rw [hindex.get]
      show (match position s.keys (parent.name, child.name) with
        | some slot => some (Resolved.declared slot, _)
        | none => some (Resolved.undeclared parent.name child.name, _)) = _
      cases position s.keys (parent.name, child.name) <;> rfl

omit [Floats F] in
/-- A pair that is not remembered is resolved by its names, and remembered if it is declared. -/
theorem resolveBy_miss (ins : EdgeIndex ℕ → String → String → ℕ → Option (EdgeIndex ℕ))
    (hindex : s.statics.index.Slots)
    (hget : s.raw.get sample.frameId sample.childFrameId = some none) :
    s.resolveBy ins sample =
      match resolvedAs s.names.tfPrefix s.keys sample.edge with
      | .declared slot => (ins s.raw sample.frameId sample.childFrameId slot).map fun raw =>
          (.declared slot, { s with
            names := ((s.names.normalize sample.frameId).2.normalize sample.childFrameId).2
            raw := raw })
      | r => some (r, { s with
          names := ((s.names.normalize sample.frameId).2.normalize sample.childFrameId).2 }) := by
  have hp := s.names.normalize_eq sample.frameId
  have hc := (s.names.normalize sample.frameId).2.normalize_eq sample.childFrameId
  rw [NameNormalizer.normalize_tfPrefix] at hc
  unfold Ingest.resolveBy resolvedAs Sample.edge
  dsimp only
  rw [hget, ← hp, ← hc]
  simp only [Option.bind_eq_bind, Option.bind_some]
  cases h₁ : (s.names.normalize sample.frameId).1 with
  | none => rfl
  | some parent =>
    cases h₂ : ((s.names.normalize sample.frameId).2.normalize sample.childFrameId).1 with
    | none => rfl
    | some child =>
      dsimp only [Option.map_some]
      unfold StaticStore.resolve
      rw [hindex.get, Option.bind_some]
      show (match position s.keys (parent.name, child.name) with
        | some slot => (ins s.raw sample.frameId sample.childFrameId slot).bind _
        | none => some (Resolved.undeclared parent.name child.name, _)) = _
      cases position s.keys (parent.name, child.name) with
      | none => rfl
      | some slot =>
        dsimp only
        cases ins s.raw sample.frameId sample.childFrameId slot <;> rfl

/-- The names of a declared pair are good. -/
theorem good_of_resolvedAs {tfPrefix : Option String} {keys : List (String × String)}
    {raw : String × String} {slot : ℕ} (h : resolvedAs tfPrefix keys raw = .declared slot) :
    (NameNormalizer.nameOf tfPrefix raw.1).isSome ∧
      (NameNormalizer.nameOf tfPrefix raw.2).isSome := by
  unfold resolvedAs at h
  cases hp : NameNormalizer.nameOf tfPrefix raw.1 with
  | none =>
    rw [hp] at h
    cases h
  | some parent =>
    cases hc : NameNormalizer.nameOf tfPrefix raw.2 with
    | none =>
      rw [hp, hc] at h
      cases h
    | some child => exact ⟨rfl, rfl⟩

omit [Floats F] in
/-- **Step lemma.** A sample is resolved as by its names, with the same names noted, and the
    spellings that are remembered stay right. -/
theorem Spelled.resolve_agrees (hs : s.Spelled P) (hst : EdgeIndex.Stores P ins)
    (sample : Sample F) :
    ∃ r s', s.resolveBy ins sample = some (r, s') ∧
      s.plain.resolveNames sample = some (r, s'.plain) ∧ s'.Spelled P := by
  have hplain := resolveNames_spec (s := s.plain) hs.index sample
  change _ = some (resolvedAs s.names.tfPrefix s.keys sample.edge, _) at hplain
  obtain ⟨hit, hget, hhas⟩ := hst.get hs.table sample.frameId sample.childFrameId
  cases hit with
  | some slot =>
    obtain ⟨hres, hp, hc⟩ := hs.spelled _ slot (hhas slot rfl)
    -- normalizing would only have counted the slashes
    have hnames : ((s.names.normalize sample.frameId).2.normalize sample.childFrameId).2 =
        s.names.noteStripped (slashes sample.frameId + slashes sample.childFrameId) := by
      rw [hp.normalize, (hc.noteStripped _).normalize]
      unfold NameNormalizer.noteStripped
      rw [Nat.add_assoc]
    refine ⟨.declared slot, { s with
      names := s.names.noteStripped (slashes sample.frameId + slashes sample.childFrameId) },
      ?_, ?_, hs.table, hs.index, fun k slot' h => ?_⟩
    · unfold Ingest.resolveBy
      simp only [Option.bind_eq_bind, hget, Option.bind_some]
      rfl
    · rw [hplain, show resolvedAs s.names.tfPrefix s.keys sample.edge = .declared slot from hres]
      change some (Resolved.declared slot, { s.plain with
        names := ((s.names.normalize sample.frameId).2.normalize sample.childFrameId).2 }) = _
      rw [hnames]
      rfl
    · obtain ⟨h₁, h₂, h₃⟩ := hs.spelled k slot' h
      exact ⟨h₁, h₂.noteStripped _, h₃.noteStripped _⟩
  | none =>
    have hmiss := resolveBy_miss ins hs.index hget
    have hkeep : ∀ k, s.names.Knows k →
        ((s.names.normalize sample.frameId).2.normalize sample.childFrameId).2.Knows k :=
      fun k h => (h.after_normalize _).after_normalize _
    have hpre : ((s.names.normalize sample.frameId).2.normalize
        sample.childFrameId).2.tfPrefix = s.names.tfPrefix := by simp
    have hold : ∀ k slot, s.raw.Has k slot →
        resolvedAs ((s.names.normalize sample.frameId).2.normalize
          sample.childFrameId).2.tfPrefix s.keys k = .declared slot ∧
        ((s.names.normalize sample.frameId).2.normalize sample.childFrameId).2.Knows k.1 ∧
        ((s.names.normalize sample.frameId).2.normalize sample.childFrameId).2.Knows k.2 := by
      intro k slot h
      obtain ⟨h₁, h₂, h₃⟩ := hs.spelled k slot h
      exact ⟨by rw [hpre]; exact h₁, hkeep _ h₂, hkeep _ h₃⟩
    cases hr : resolvedAs s.names.tfPrefix s.keys sample.edge with
    | badName =>
      rw [hr] at hmiss hplain
      exact ⟨_, _, hmiss, hplain, hs.table, hs.index, hold⟩
    | undeclared parent child =>
      rw [hr] at hmiss hplain
      exact ⟨_, _, hmiss, hplain, hs.table, hs.index, hold⟩
    | declared slot =>
      rw [hr] at hmiss hplain
      obtain ⟨raw, hins, htable, hnew⟩ :=
        hst.insert hs.table sample.frameId sample.childFrameId slot hget
      dsimp only at hmiss
      rw [hins, Option.map_some] at hmiss
      refine ⟨_, _, hmiss, hplain, htable, hs.index, fun k slot' h => ?_⟩
      rcases hnew k slot' h with h | ⟨rfl, rfl⟩
      · exact hold k slot' h
      · -- the pair was normalized just now
        obtain ⟨hp, hc⟩ := good_of_resolvedAs hr
        refine ⟨by rw [hpre]; exact hr, ?_, ?_⟩
        · exact (NameNormalizer.knows_normalize hp).after_normalize _
        · exact NameNormalizer.knows_normalize (by rw [NameNormalizer.normalize_tfPrefix]; exact hc)

/-! ### Runs -/

/-- Steps 1 to 6 of `offer` with another resolver. -/
def offerCountedBy (res : Resolver F) (s : Ingest F) (topic : Topic) (sample : Sample F)
    (publisher : Publisher) : Option (Action F × Ingest F) := do
  let s := { s with stats := { s.stats with transforms := s.stats.transforms + 1 } }
  let (resolved, s) ← res s sample
  match resolved with
  | .declared slot => s.offerDeclared topic slot sample publisher
  | .badName =>
    return (.drop .badName, { s with
      stats := { s.stats with droppedBadName := s.stats.droppedBadName + 1 } })
  | .undeclared parent child => return s.noteUndeclared parent child

/-- `offer` with another resolver. -/
def offerBy (res : Resolver F) (s : Ingest F) (topic : Topic) (sample : Sample F)
    (publisher : Publisher) : Option (Action F × Ingest F) := do
  if s.startupWindowOpen ∧ s.stats.transforms ≥ startupWindowTransforms then
    let (halt, s) ← s.closeStartupWindow
    match halt with
    | some halt => return (halt, s)
    | none => s.offerCountedBy res topic sample publisher
  else s.offerCountedBy res topic sample publisher

/-- One call with another resolver. -/
def callBy (res : Resolver F) (s : Ingest F) : Call F → Option (Option (Action F) × Ingest F)
  | .offer topic sample publisher => do
    let (a, s) ← s.offerBy res topic sample publisher
    return (some a, s)
  | .noteTimeJump deltaNanos kind =>
    let (a, s) := s.noteTimeJump deltaNanos kind
    some (some a, s)
  | .closeStartupWindow => s.closeStartupWindow

/-- A sequence of calls with another resolver. -/
def runBy (res : Resolver F) (s : Ingest F) : List (Call F) → Option (List (Event F) × Ingest F)
  | [] => some ([], s)
  | c :: cs => do
    let (a, s) ← s.callBy res c
    let (trace, s) ← s.runBy res cs
    return ((c, a) :: trace, s)

/-- The code's own resolver. -/
theorem runBy_insert (s : Ingest F) (calls : List (Call F)) :
    s.runBy (resolveBy EdgeIndex.insert) calls = s.run calls := by
  induction calls generalizing s with
  | nil => rfl
  | cons c cs ih =>
    unfold runBy Ingest.run
    simp only [ih]
    cases c <;> rfl

/-- A counted transform is decided alike. -/
theorem Spelled.offerCounted_agrees (hs : s.Spelled P) (hst : EdgeIndex.Stores P ins)
    (topic : Topic) (sample : Sample F) (publisher : Publisher) :
    s.plain.offerCountedBy resolveNames topic sample publisher =
        plainly (s.offerCountedBy (resolveBy ins) topic sample publisher) ∧
      ∀ a s', s.offerCountedBy (resolveBy ins) topic sample publisher = some (a, s') →
        s'.Spelled P := by
  have hs₀ : Spelled P
      { s with stats := { s.stats with transforms := s.stats.transforms + 1 } } :=
    hs.kept ⟨rfl, rfl, rfl⟩
  obtain ⟨r, s₁, hres, hplain, hs₁⟩ := hs₀.resolve_agrees hst sample
  unfold offerCountedBy
  simp only [Option.bind_eq_bind, hres, Option.bind_some]
  change ((resolveNames (plain { s with stats := { s.stats with
    transforms := s.stats.transforms + 1 } }) sample).bind _ = _) ∧ _
  rw [hplain, Option.bind_some]
  cases r with
  | declared slot =>
    exact ⟨offerDeclared_plain s₁ topic slot sample publisher,
      fun a s' h => hs₁.kept (offerDeclared_kept h)⟩
  | undeclared parent child =>
    refine ⟨rfl, fun a s' h => ?_⟩
    cases h
    exact hs₁.kept ⟨rfl, rfl, rfl⟩
  | badName =>
    refine ⟨rfl, fun a s' h => ?_⟩
    cases h
    exact hs₁.kept ⟨rfl, rfl, rfl⟩

/-- **Step lemma.** A call is answered alike. -/
theorem Spelled.call_agrees (hs : s.Spelled P) (hst : EdgeIndex.Stores P ins) (c : Call F) :
    s.plain.callBy resolveNames c = plainly (s.callBy (resolveBy ins) c) ∧
      ∀ o s', s.callBy (resolveBy ins) c = some (o, s') → s'.Spelled P := by
  cases c with
  | closeStartupWindow =>
    exact ⟨closeStartupWindow_plain s, fun o s' h => hs.kept (closeStartupWindow_kept h)⟩
  | noteTimeJump deltaNanos kind =>
    have hkept := applyClockReset_kept s deltaNanos (.reported kind)
    refine ⟨?_, fun o s' h => ?_⟩
    · unfold callBy noteTimeJump applyClockReset
      dsimp only [plain]
      cases s.clock.onReset <;> rfl
    · cases h
      exact hs.kept hkept
  | offer topic sample publisher =>
    suffices hoffer : s.plain.offerBy resolveNames topic sample publisher =
        plainly (s.offerBy (resolveBy ins) topic sample publisher) ∧
        ∀ a s', s.offerBy (resolveBy ins) topic sample publisher = some (a, s') → s'.Spelled P by
      obtain ⟨heq, hkept⟩ := hoffer
      refine ⟨?_, fun o s' h => ?_⟩
      · show (s.plain.offerBy resolveNames topic sample publisher).bind _ = _
        rw [heq]
        show _ = plainly ((s.offerBy (resolveBy ins) topic sample publisher).bind _)
        cases s.offerBy (resolveBy ins) topic sample publisher <;> rfl
      · obtain ⟨⟨a, s₁⟩, h, hret⟩ := Option.bind_eq_some_iff.mp h
        cases hret
        exact hkept _ _ h
    unfold offerBy
    by_cases hwin : s.startupWindowOpen = true ∧ s.stats.transforms ≥ startupWindowTransforms
    · rw [if_pos hwin, if_pos (show s.plain.startupWindowOpen = true ∧
        s.plain.stats.transforms ≥ startupWindowTransforms from hwin), closeStartupWindow_plain]
      cases hclose : s.closeStartupWindow with
      | none => exact ⟨rfl, fun a s' h => by cases h⟩
      | some r =>
        obtain ⟨halt, s₁⟩ := r
        have hs₁ := hs.kept (closeStartupWindow_kept hclose)
        cases halt with
        | some halt =>
          refine ⟨rfl, fun a s' h => ?_⟩
          cases h
          exact hs₁
        | none => exact hs₁.offerCounted_agrees hst topic sample publisher
    · rw [if_neg hwin, if_neg (show ¬(s.plain.startupWindowOpen = true ∧
        s.plain.stats.transforms ≥ startupWindowTransforms) from hwin)]
      exact hs.offerCounted_agrees hst topic sample publisher

/-- **Run lemma.** A sequence of calls is answered alike, and ends in the same tables. -/
theorem Spelled.run_agrees (hs : s.Spelled P) (hst : EdgeIndex.Stores P ins)
    (calls : List (Call F)) :
    s.plain.runBy resolveNames calls = plainly (s.runBy (resolveBy ins) calls) := by
  induction calls generalizing s with
  | nil => rfl
  | cons c cs ih =>
    obtain ⟨heq, hkept⟩ := hs.call_agrees hst c
    unfold runBy
    rw [heq]
    cases hcall : s.callBy (resolveBy ins) c with
    | none => rfl
    | some r =>
      obtain ⟨o, s₁⟩ := r
      have hrest := ih (hkept o s₁ hcall)
      simp only [plainly, Option.map_some, Option.bind_eq_bind, Option.bind_some]
      rw [hrest]
      unfold plainly
      cases s₁.runBy (resolveBy ins) cs <;> rfl

end Ingest

/-- **Main theorem.** Over any topology, every sequence of calls is answered alike, and ends in
    the same tables, remaps, names seen and count of slashes, whether the table of spellings is
    asked, with positions of any width or of 32 bits, or every sample is normalized and looked
    up. In a table with positions of 32 bits any number of insertions and every probe ends, and a
    hit is a value that was inserted for its own pair. -/
theorem spellings_do_not_show [Floats F] (config : TopologyConfig F) (policy : AuthorityPolicy)
    (clock : ClockPolicy F) (tfPrefix : Option String) :
    (∃ s, Ingest.withPolicies config policy clock tfPrefix = some s ∧ ∀ calls : List (Call F),
      Ingest.plainly (s.run calls) = s.plain.runBy Ingest.resolveNames calls ∧
      Ingest.plainly (s.runBy (Ingest.resolveBy EdgeIndex.insertWord) calls) =
        s.plain.runBy Ingest.resolveNames calls) ∧
    ∀ (V : Type) (n : ℕ) (ops : List ((String × String) × V)),
      ∃ t, (EdgeIndex.withCapacity n).insertAllWord ops = some t ∧
        ∀ p c, ∃ r, t.get p c = some r ∧ ∀ v, r = some v → ((p, c), v) ∈ ops := by
  constructor
  · obtain ⟨s, hs, hok, -⟩ := Ingest.withPolicies_ok config policy clock tfPrefix
    have hempty : ∃ k, s.raw = EdgeIndex.withCapacity k := by
      unfold Ingest.withPolicies at hs
      obtain ⟨statics, -, hs⟩ := Option.bind_eq_some_iff.mp hs
      obtain ⟨authority, -, hs⟩ := Option.bind_eq_some_iff.mp hs
      cases hs
      exact ⟨_, rfl⟩
    obtain ⟨k, hraw⟩ := hempty
    have hnone : ∀ k slot, ¬s.raw.Has k slot := by
      rintro k slot ⟨e, hk, -⟩
      rw [hraw] at hk
      cases hk
    refine ⟨s, hs, fun calls => ⟨?_, ?_⟩⟩
    · have hspelled : s.Spelled EdgeIndex.Ok :=
        ⟨hok.raw, hok.statics.index, fun k slot h => absurd h (hnone k slot)⟩
      rw [hspelled.run_agrees EdgeIndex.stores_ok, Ingest.runBy_insert]
    · have hspelled : s.Spelled EdgeIndex.Weak :=
        ⟨hraw ▸ EdgeIndex.weak_withCapacity k, hok.statics.index,
          fun k slot h => absurd h (hnone k slot)⟩
      rw [hspelled.run_agrees EdgeIndex.stores_weak]
  · intro V n ops
    obtain ⟨t, hrun, hweak, hhas⟩ := (EdgeIndex.weak_withCapacity (V := V) n).insertAllWord ops
    refine ⟨t, hrun, fun p c => ?_⟩
    obtain ⟨r, hget, hr⟩ := hweak.get p c
    refine ⟨r, hget, fun v hv => (hhas _ v (hr v hv)).resolve_left ?_⟩
    rintro ⟨e, hk, -⟩
    cases hk

end TfTree.Bridge
