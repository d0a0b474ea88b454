import Mathlib
import TfTree.Frame.Lone

/-!
# Interning a list of names

`ArenaView::intern` of one name after the other on a zeroed table, by the thread that builds
the arena and that nobody else has joined.

Results:
* `InternMem.Filled.run_new`, `run_known`, `run_collision`: the next name gets the next id;
  a name that is in the table gets its id again; a name that shares only the hash of one in
  the table is refused.
-/

namespace TfTree

open Conc

namespace InternMem

variable {T : InternTable} {m m' : InternMem} {t me fuel k d hash : ℕ} {name name' : List UInt8}
  {names : List (List UInt8)}

/-- The probe of `hash` comes, behind slots of other hashes, to the slot of the id `id`. -/
structure SlotOf (T : InternTable) (m : InternMem) (hash id d : ℕ) : Prop where
  lt : d < T.len
  passed : Passed T m hash d
  hashed : m.hashes (T.pos hash d) = hash
  shown : m.ids (T.pos hash d) = id

/-- The table holds the names of the list, whose ids are their places, and nothing else. -/
structure Filled (T : InternTable) (m : InternMem) (names : List (List UInt8)) : Prop where
  count : m.frameCount = names.length
  fits : names.length ≤ T.capacity
  slot : ∀ (k : ℕ) (name : List UInt8), names[k]? = some name →
    ∃ d, SlotOf T m (T.hash name) (k + 1) d
  record : ∀ (k : ℕ) (name : List UInt8), names[k]? = some name →
    m.records (k + 1) = .forName name (T.hash name)
  owned : ∀ i, m.hashes i ≠ 0 → ∃ name ∈ names, m.hashes i = T.hash name
  empty : ∀ i, m.hashes i = 0 → m.ids i = idUnpublished ∧ m.claiming i = claimUnrecorded
  used : ∃ s : Finset ℕ, s.card ≤ names.length ∧ ∀ i, m.hashes i ≠ 0 → i ∈ s

theorem filled_init (alive : ℕ → Bool) : Filled T (init alive) [] where
  count := rfl
  fits := Nat.zero_le _
  slot := nofun
  record := nofun
  owned := fun _ h => absurd rfl h
  empty := fun _ _ => ⟨rfl, rfl⟩
  used := ⟨∅, Nat.le_refl 0, fun _ h => absurd rfl h⟩

/-! ## The probe -/

theorem pos_injOn (T : InternTable) (hash : ℕ) :
    Set.InjOn (T.pos hash) (Finset.range T.len : Set ℕ) := by
  intro d hd e he h
  rw [Finset.coe_range, Set.mem_Iio] at hd he
  have hmod : d % T.len = e % T.len := Nat.ModEq.add_left_cancel' hash h
  rwa [Nat.mod_eq_of_lt hd, Nat.mod_eq_of_lt he] at hmod

/-- A table with room has an empty slot on every probe. -/
theorem Filled.exists_empty (h : Filled T m names) (hroom : names.length < T.capacity)
    (hash : ℕ) : ∃ d < T.len, m.hashes (T.pos hash d) = 0 := by
  by_contra hnone
  obtain ⟨s, hcard, hs⟩ := h.used
  have hmaps : ∀ d ∈ Finset.range T.len, T.pos hash d ∈ s := by
    intro d hd
    exact hs _ fun h0 => hnone ⟨d, Finset.mem_range.mp hd, h0⟩
  have hle := Finset.card_le_card_of_injOn (T.pos hash) hmaps (pos_injOn T hash)
  rw [Finset.card_range] at hle
  obtain ⟨j, hj, hlen, -⟩ := nextPow2_spec (2 * T.maxFrames)
  have hT : T.len = 2 ^ j := hj
  unfold InternTable.capacity at hroom
  omega

/-- The probe of a hash that is not in the table comes to an empty slot. -/
theorem Filled.exists_passed (h : Filled T m names) (hroom : names.length < T.capacity)
    (hfresh : ∀ name ∈ names, T.hash name ≠ hash) :
    ∃ d < T.len, Passed T m hash d ∧ m.hashes (T.pos hash d) = 0 := by
  obtain ⟨d, ⟨hd, hempty⟩, hmin⟩ := Nat.findX (h.exists_empty hroom hash)
  refine ⟨d, hd, fun d' hd' => ?_, hempty⟩
  have h0 : m.hashes (T.pos hash d') ≠ 0 := fun h0 => hmin d' hd' ⟨by omega, h0⟩
  obtain ⟨name, hmem, hname⟩ := h.owned _ h0
  exact ⟨h0, by rw [hname]; exact hfresh name hmem⟩

/-- The loop of `intern_core` runs through the slots of other hashes. -/
theorem Passed.run_internLoop (h : Passed T m hash d) (n : ℕ) :
    (T.internLoop t me fuel hash name (d + n) (T.pos hash 0)).run (InternOp.exec T) m =
      (T.internLoop t me fuel hash name n (T.pos hash d)).run (InternOp.exec T) m := by
  induction d generalizing n with
  | zero => rw [Nat.zero_add]
  | succ d ih =>
    obtain ⟨h0, hne⟩ := h d (Nat.lt_succ_self d)
    rw [Nat.add_assoc, Nat.add_comm 1 n, ih fun d' hd' => h d' (by omega)]
    show (if m.hashes (T.pos hash d) = hash then _
      else if m.hashes (T.pos hash d) = 0 then _ else _ : InternProg _).run _ m = _
    rw [if_neg hne, if_neg h0, T.pos_succ]

/-- `intern_core`, from the first slot of the probe that is empty or of the hash. -/
theorem Passed.run_internCore (t me fuel : ℕ) (h : Passed T m (T.hash name) d)
    (hd : d < T.len) : ∃ n, (T.internCore t me fuel name).run (InternOp.exec T) m =
      (T.internLoop t me fuel (T.hash name) name (n + 1) (T.pos (T.hash name) d)).run
        (InternOp.exec T) m := by
  obtain ⟨n, hn⟩ : ∃ n, 2 * T.len = d + (n + 1) := ⟨2 * T.len - d - 1, by omega⟩
  refine ⟨n, ?_⟩
  rw [InternTable.internCore, T.pos_zero, hn]
  exact h.run_internLoop (n + 1)

/-! ## A name that is in the table -/

/-- The loop of `intern_core` at a published slot of its hash. -/
theorem SlotOf.run_resolve {id : ℕ} (h : SlotOf T m (T.hash name) id d) (h0 : id ≠ idUnpublished) :
    (T.internCore t me fuel name).run (InternOp.exec T) m =
      (some <$> T.resolve id (T.hash name) name).run (InternOp.exec T) m := by
  obtain ⟨n, hrun⟩ := h.passed.run_internCore t me fuel h.lt
  rw [hrun]
  show (if m.hashes (T.pos (T.hash name) d) = T.hash name then _ else _ : InternProg _).run _ m = _
  rw [if_pos h.hashed]
  rw [Prog.run_seq (InternTable.run_wait_published h.shown h0)]

/-- The ids of the names are real ones. -/
theorem Filled.id_lt (h : Filled T m names) (hk : names[k]? = some name) :
    k + 1 < T.maxFrames ∧ k + 1 ≠ idFailed := by
  have hlt := (List.getElem?_eq_some_iff.mp hk).1
  have hfits := h.fits
  have hcap := T.capacity_lt
  constructor
  · unfold InternTable.capacity at hfits
    omega
  · omega

/-- No name of the table hashes to the mark of an empty slot. -/
theorem Filled.hash_ne_zero (h : Filled T m names) (hk : names[k]? = some name) :
    T.hash name ≠ 0 := by
  obtain ⟨d, hslot⟩ := h.slot k name hk
  intro h0
  have hid := (h.empty _ (hslot.hashed.trans h0)).1
  rw [hslot.shown] at hid
  exact Nat.succ_ne_zero k hid

/-- A name that has the hash of one in the table and is stored as that one gets its id. -/
theorem Filled.run_shared (t me fuel : ℕ) (h : Filled T m names) (hk : names[k]? = some name')
    (hhash : T.hash name = T.hash name')
    (hname : FrameRecord.stored name = FrameRecord.stored name') :
    (T.internCore t me fuel name).run (InternOp.exec T) m = some (some (.ok (k + 1)), m) := by
  obtain ⟨d, hslot⟩ := h.slot k name' hk
  obtain ⟨hlt, hne⟩ := h.id_lt hk
  rw [← hhash] at hslot
  rw [hslot.run_resolve (Nat.succ_ne_zero k)]
  refine InternTable.run_map (InternTable.run_resolve hlt hne ?_)
  rw [h.record k name' hk]
  exact FrameRecord.forName_matches.mpr hname

/-- A name that is in the table gets its id again. -/
theorem Filled.run_known (h : Filled T m names) (hk : names[k]? = some name) :
    (T.internCore t me fuel name).run (InternOp.exec T) m = some (some (.ok (k + 1)), m) :=
  h.run_shared t me fuel hk rfl rfl

/-- The loop of `find_core` runs through the slots of other hashes. -/
theorem Passed.run_findLoop (h : Passed T m hash d) (n : ℕ) :
    (T.findLoop fuel hash name (d + n) (T.pos hash 0)).run (InternOp.exec T) m =
      (T.findLoop fuel hash name n (T.pos hash d)).run (InternOp.exec T) m := by
  induction d generalizing n with
  | zero => rw [Nat.zero_add]
  | succ d ih =>
    obtain ⟨h0, hne⟩ := h d (Nat.lt_succ_self d)
    rw [Nat.add_assoc, Nat.add_comm 1 n, ih fun d' hd' => h d' (by omega)]
    show (if m.hashes (T.pos hash d) = 0 then _
      else if m.hashes (T.pos hash d) = hash then _ else _ : InternProg _).run _ m = _
    rw [if_neg h0, if_neg hne, T.pos_succ]

/-- A reader of such a name finds that id, too. -/
theorem Filled.run_find_shared (h : Filled T m names) (hk : names[k]? = some name')
    (hhash : T.hash name = T.hash name')
    (hname : FrameRecord.stored name = FrameRecord.stored name') :
    (T.findCore fuel name).run (InternOp.exec T) m = some (some (.ok (some (k + 1))), m) := by
  obtain ⟨d, hslot⟩ := h.slot k name' hk
  obtain ⟨hlt, hne⟩ := h.id_lt hk
  rw [← hhash] at hslot
  obtain ⟨n, hn⟩ : ∃ n, T.len = d + (n + 1) := ⟨T.len - d - 1, by have := hslot.lt; omega⟩
  have hmatch : (m.records (k + 1)).nameMatches name = true := by
    rw [h.record k name' hk]
    exact FrameRecord.forName_matches.mpr hname
  rw [InternTable.findCore, T.pos_zero, hn, hslot.passed.run_findLoop]
  show (if m.hashes (T.pos (T.hash name) d) = 0 then _
    else if m.hashes (T.pos (T.hash name) d) = T.hash name then _ else _ :
      InternProg _).run _ m = _
  rw [if_neg (by rw [hslot.hashed, hhash]; exact h.hash_ne_zero hk), if_pos hslot.hashed,
    Prog.run_seq (InternTable.run_wait_published hslot.shown (Nat.succ_ne_zero k))]
  show (if k + 1 = idFailed then _ else _ : InternProg _).run _ m = _
  rw [if_neg hne, Prog.run_seq (InternTable.run_resolve hlt hne hmatch)]
  rfl

/-- A reader finds the id of a name that is in the table. -/
theorem Filled.run_find (h : Filled T m names) (hk : names[k]? = some name) :
    (T.findCore fuel name).run (InternOp.exec T) m = some (some (.ok (some (k + 1))), m) :=
  h.run_find_shared hk rfl rfl

/-- A name whose hash is in the table for a name that is stored differently is refused. -/
theorem Filled.run_collision (h : Filled T m names) (hk : names[k]? = some name')
    (hhash : T.hash name = T.hash name')
    (hname : FrameRecord.stored name ≠ FrameRecord.stored name') :
    (T.internCore t me fuel name).run (InternOp.exec T) m =
      some (some (.error (.frameHashCollision (T.hash name))), m) := by
  obtain ⟨d, hslot⟩ := h.slot k name' hk
  obtain ⟨hlt, hne⟩ := h.id_lt hk
  rw [← hhash] at hslot
  rw [hslot.run_resolve (Nat.succ_ne_zero k)]
  have hdiffers : (m.records (k + 1)).nameMatches name = false := by
    rw [h.record k name' hk, Bool.eq_false_iff]
    exact fun hmatch => hname (FrameRecord.forName_matches.mp hmatch)
  have hsame : (T.nameMatches (k + 1) name).run (InternOp.exec T) m = some (false, m) := by
    rw [InternTable.nameMatches, if_neg (by omega), ← hdiffers]
    rfl
  refine InternTable.run_map ?_
  rw [InternTable.resolve, if_neg hne, Prog.run_seq hsame]
  rfl

/-! ## A new name -/

theorem getElem?_concat_ge {α : Type} {l : List α} {a b : α} {k : ℕ} (hge : l.length ≤ k)
    (h : (l ++ [a])[k]? = some b) : k = l.length ∧ a = b := by
  rw [List.getElem?_append_right hge, List.getElem?_singleton] at h
  split_ifs at h with h0
  exact ⟨by omega, Option.some_inj.mp h⟩

theorem SlotOf.of_agree {id i : ℕ} (h : SlotOf T m hash id d) (h0 : m.hashes i = 0)
    (hhash : hash ≠ 0) (hhashes : ∀ j, j ≠ i → m'.hashes j = m.hashes j)
    (hids : ∀ j, j ≠ i → m'.ids j = m.ids j) : SlotOf T m' hash id d := by
  have hne : ∀ {j}, m.hashes j ≠ 0 → j ≠ i := by
    rintro j hj rfl
    exact hj h0
  have hat : T.pos hash d ≠ i := hne (by rw [h.hashed]; exact hhash)
  refine ⟨h.lt, fun d' hd' => ?_, ?_, ?_⟩
  · have hp := h.passed d' hd'
    rw [hhashes _ (hne hp.1)]
    exact hp
  · rw [hhashes _ hat, h.hashed]
  · rw [hids _ hat, h.shown]

/-- A name whose hash is new gets the next id. -/
theorem Filled.run_new (t me fuel : ℕ) (h : Filled T m names) (hroom : names.length < T.capacity)
    (hh : T.hash name ≠ 0)
    (hfresh : ∀ name' ∈ names, T.hash name' ≠ T.hash name) :
    ∃ m', (T.internCore t me fuel name).run (InternOp.exec T) m =
        some (some (.ok (names.length + 1)), m') ∧ Filled T m' (names ++ [name]) := by
  obtain ⟨d, hd, hpassed, hempty⟩ := h.exists_passed hroom hfresh
  obtain ⟨n, hcore⟩ := hpassed.run_internCore t me fuel hd
  obtain ⟨hid, hclaim⟩ := h.empty _ hempty
  have hcount : m.frameCount < T.capacity := by rw [h.count]; exact hroom
  obtain ⟨m', hrun, hent, hhashes, hclaiming, hrecords⟩ :=
    InternTable.run_internLoop_new t me fuel n name hcount hempty hid hclaim hh
  have hids := hent.ids
  have hnext := hent.frameCount
  rw [h.count] at hrun hids hnext hrecords
  obtain ⟨i, hat⟩ : ∃ i, T.pos (T.hash name) d = i := ⟨_, rfl⟩
  rw [hat] at hempty hids hclaiming hhashes
  have hother : ∀ j, j ≠ i → m'.hashes j = m.hashes j := fun j hj => by
    rw [hhashes, upd_of_ne _ _ hj]
  have hotherId : ∀ j, j ≠ i → m'.ids j = m.ids j := fun j hj => by rw [hids, upd_of_ne _ _ hj]
  refine ⟨m', hcore.trans hrun, ?_, ?_, ?_, ?_, ?_, ?_, ?_⟩
  · rw [hnext, List.length_append]
    rfl
  · rw [List.length_append]
    exact hroom
  · intro k name' hk
    rcases Nat.lt_or_ge k names.length with hlt | hge
    · rw [List.getElem?_append_left hlt] at hk
      obtain ⟨e, hslot⟩ := h.slot k name' hk
      exact ⟨e, hslot.of_agree hempty (h.hash_ne_zero hk) hother hotherId⟩
    · obtain ⟨rfl, rfl⟩ := getElem?_concat_ge hge hk
      refine ⟨d, hd, fun d' hd' => ?_, ?_, ?_⟩
      · have hp := hpassed d' hd'
        rw [hother _ fun he => hp.1 (by rw [he]; exact hempty)]
        exact hp
      · rw [hat, hhashes, upd_self]
      · rw [hat, hids, upd_self]
  · intro k name' hk
    rw [hrecords]
    rcases Nat.lt_or_ge k names.length with hlt | hge
    · rw [List.getElem?_append_left hlt] at hk
      rw [upd_of_ne _ _ (by omega), h.record k name' hk]
    · obtain ⟨rfl, rfl⟩ := getElem?_concat_ge hge hk
      rw [upd_self]
  · intro j hj
    by_cases hji : j = i
    · refine ⟨name, by simp, ?_⟩
      rw [hji, hhashes, upd_self]
    · rw [hother j hji] at hj ⊢
      obtain ⟨name', hmem, hname'⟩ := h.owned j hj
      exact ⟨name', List.mem_append_left _ hmem, hname'⟩
  · intro j hj
    have hji : j ≠ i := by
      rintro rfl
      rw [hhashes, upd_self] at hj
      exact hh hj
    rw [hother j hji] at hj
    rw [hotherId j hji, hclaiming j hji]
    exact h.empty j hj
  · obtain ⟨s, hcard, hs⟩ := h.used
    refine ⟨insert i s, ?_, fun j hj => ?_⟩
    · rw [List.length_append]
      exact (Finset.card_insert_le _ _).trans (Nat.succ_le_succ hcard)
    · by_cases hji : j = i
      · rw [hji]
        exact Finset.mem_insert_self _ _
      · rw [hother j hji] at hj
        exact Finset.mem_insert_of_mem (hs j hj)

end InternMem

end TfTree
