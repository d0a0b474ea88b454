import TfTree.Frame.Table

/-!
# Calls that run alone

What the programs of the frame table do when nobody interferes.

* `run_finish`: a new id.
* `run_wait_takeOver`: a waiter takes over the entry of a claimant that is reported dead.
* `run_internCore_new`, `run_internCore_known`: a name that meets an empty slot, and a name
  that meets its own.
-/

namespace TfTree

open Conc InternProg

namespace InternTable

/-- Slot `d` of the probe of `hash`. -/
def pos (T : InternTable) (hash d : ℕ) : ℕ := (hash + d) % T.len

section Probe

variable (T : InternTable)

theorem len_pos : 0 < T.len := by
  obtain ⟨k, hk⟩ := nextPow2_pow (2 * T.maxFrames)
  rw [len, hk]
  exact Nat.two_pow_pos k

theorem and_mask (x : ℕ) : x &&& T.mask = x % T.len := by
  obtain ⟨k, hk⟩ := nextPow2_pow (2 * T.maxFrames)
  rw [mask, len, hk, Nat.and_two_pow_sub_one_eq_mod]

theorem pos_zero (hash : ℕ) : hash &&& T.mask = T.pos hash 0 := T.and_mask hash

theorem pos_succ (hash d : ℕ) : (T.pos hash d + 1) &&& T.mask = T.pos hash (d + 1) := by
  rw [and_mask, pos, pos, Nat.mod_add_mod, Nat.add_assoc]

theorem pos_sub {hash d : ℕ} (h : T.len ≤ d) : T.pos hash (d - T.len) = T.pos hash d := by
  show (hash + (d - T.len)) % T.len = (hash + d) % T.len
  rw [← Nat.add_sub_assoc h, ← Nat.mod_eq_sub_mod (by omega)]

end Probe

section Run

variable {T : InternTable} {m : InternMem} {t me i id hash fuel : ℕ} {name : List UInt8}

theorem capacity_lt (T : InternTable) : T.capacity < idFailed := by
  have := T.maxFrames_lt
  unfold InternTable.capacity idFailed
  omega

theorem run_map {α β : Type} {f : α → β} {p : InternProg α} {m' : InternMem} {a : α}
    (h : p.run (InternOp.exec T) m = some (a, m')) :
    (f <$> p).run (InternOp.exec T) m = some (f a, m') := by
  rw [← bind_pure_comp, Prog.run_seq h]
  rfl

theorem run_writeRecord (h : id < T.maxFrames) :
    (T.writeRecord id hash name).run (InternOp.exec T) m =
      some ((), { m with records := upd m.records id (.forName name hash) }) := by
  rw [writeRecord, if_neg (by omega)]
  show some ((), ({ m with records := upd (upd (upd m.records id _) id _) id _ } : InternMem)) = _
  simp only [InternOp.exec, upd_upd, upd_self]

theorem run_resolve (h : id < T.maxFrames) (hf : id ≠ idFailed)
    (hname : (m.records id).nameMatches name = true) :
    (T.resolve id hash name).run (InternOp.exec T) m = some (.ok id, m) := by
  have hsame : (T.nameMatches id name).run (InternOp.exec T) m = some (true, m) := by
    rw [nameMatches, if_neg (by omega), ← hname]
    rfl
  rw [resolve, if_neg hf, Prog.run_seq hsame]
  rfl

/-- The entry of a slot after a call that ran alone. -/
structure Entered (m m' : InternMem) (i : ℕ) (r : FrameRecord) : Prop where
  ids : m'.ids = upd m.ids i (m.frameCount + 1)
  frameCount : m'.frameCount = m.frameCount + 1
  records : m'.records (m.frameCount + 1) = r
  alive : m'.alive = m.alive
  wrapped : m'.wrapped = m.wrapped

/-- `finish` of an unpublished slot. -/
theorem run_finish (hn : m.frameCount < T.capacity) (hid : m.ids i = idUnpublished) :
    ∃ m', (T.finish t i hash name).run (InternOp.exec T) m =
        some (.ok (m.frameCount + 1), m') ∧
      Entered m m' i (.forName name hash) ∧ m'.hashes = m.hashes ∧ m'.claiming = m.claiming ∧
      m'.records = upd m.records (m.frameCount + 1) (.forName name hash) := by
  have hcap := T.capacity_lt
  have hlt : m.frameCount + 1 < T.maxFrames := by
    unfold capacity at hn
    omega
  unfold idFailed at hcap
  have hmod : (m.frameCount + 1) % 2 ^ 32 = m.frameCount + 1 := Nat.mod_eq_of_lt (by omega)
  have hwrap : decide (m.frameCount + 1 = 2 ^ 32) = false := decide_eq_false (by omega)
  let m₁ := (InternOp.exec T (.addCount t) m).2
  let m₂ : InternMem :=
    { m₁ with records := upd m₁.records (m.frameCount + 1) (.forName name hash) }
  let m₃ := (InternOp.exec T (.casId i (m.frameCount + 1)) m₂).2
  refine ⟨m₃, ?_, ⟨?_, hmod, upd_self _ _ _, rfl, ?_⟩, rfl, rfl, rfl⟩
  · show (if T.capacity ≤ m.frameCount then _ else _ : InternProg _).run _ m₁ = _
    rw [if_neg (by omega)]
    refine (Prog.run_seq (run_writeRecord hlt)).trans ?_
    show (if (if m.ids i = idUnpublished then m.frameCount + 1 else m.ids i) = m.frameCount + 1
      then _ else _ : InternProg _).run _ m₃ = _
    rw [if_pos hid, if_pos rfl]
    rfl
  · show InternOp.cas m.ids i idUnpublished (m.frameCount + 1) = _
    rw [InternOp.cas, if_pos hid]
  · show (m.wrapped || decide (m.frameCount + 1 = 2 ^ 32)) = m.wrapped
    rw [hwrap, Bool.or_false]

/-- A waiter at a published slot. -/
theorem run_wait_published {role : Role} {spins rounds : ℕ} (hid : m.ids i = id)
    (h0 : id ≠ idUnpublished) :
    (waitForPublish i role (fuel + 1) spins rounds).run (InternOp.exec T) m =
      some (some (.published id), m) := by
  subst hid
  show (if m.ids i ≠ idUnpublished then _ else _ : InternProg _).run _ m = _
  rw [if_pos h0]
  rfl

/-- The waiter's patience. -/
theorem run_wait_spin {role : Role} {rounds : ℕ} (hid : m.ids i = idUnpublished) (n : ℕ) :
    ∀ {spins}, spins + n < internSpinLimit →
      (waitForPublish i role (fuel + n) spins rounds).run (InternOp.exec T) m =
        (waitForPublish i role fuel (spins + n) rounds).run (InternOp.exec T) m := by
  induction n with
  | zero => exact fun {_} _ => rfl
  | succ n ih =>
    intro spins h
    show (if m.ids i ≠ idUnpublished then _ else if spins + 1 < internSpinLimit then _ else _ :
      InternProg _).run _ m = _
    rw [if_neg (not_not_intro hid), if_pos (by omega)]
    refine (ih (by omega)).trans ?_
    rw [Nat.add_right_comm, Nat.add_assoc]

/-- A waiter takes over the entry of a claimant that is reported dead. -/
theorem run_wait_takeOver {owner : ℕ} (hid : m.ids i = idUnpublished)
    (howner : m.claiming i = owner) (h0 : owner ≠ claimUnrecorded) (ha : owner ≠ claimAnonymous)
    (hdead : m.alive owner = false) :
    (waitForPublish i (.interner me) (fuel + internSpinLimit) 0 0).run (InternOp.exec T) m =
      some (some .takenOver, { m with claiming := upd m.claiming i me }) := by
  subst howner
  obtain ⟨n, hn⟩ : ∃ n, internSpinLimit = n + 1 := ⟨9999, rfl⟩
  have hlimit : fuel + internSpinLimit = fuel + 1 + n := by omega
  rw [hlimit, run_wait_spin hid n (by omega)]
  show (if m.ids i ≠ idUnpublished then _ else if 0 + n + 1 < internSpinLimit then _ else _ :
    InternProg _).run _ m = _
  rw [if_neg (not_not_intro hid), if_neg (by omega)]
  show (if m.claiming i = claimAnonymous then _ else
    if m.claiming i = claimUnrecorded then _ else _ : InternProg _).run _ m = _
  rw [if_neg ha, if_neg h0]
  show (if (!m.alive (m.claiming i)) = true then _ else _ : InternProg _).run _ m = _
  rw [hdead, if_pos (show (!false) = true from rfl)]
  show (if decide (m.claiming i = m.claiming i) = true then _ else _ : InternProg _).run _
    { m with claiming := InternOp.cas m.claiming i (m.claiming i) me } = _
  rw [InternOp.cas, if_pos rfl, if_pos (decide_eq_true rfl)]
  show some (some (if m.ids i ≠ idUnpublished then Wait.published (m.ids i) else .takenOver),
    ({ m with claiming := upd m.claiming i me } : InternMem)) = _
  rw [if_neg (not_not_intro hid)]

theorem exists_turns (T : InternTable) : ∃ n, 2 * T.len = n + 1 :=
  Nat.exists_eq_succ_of_ne_zero (by have := T.len_pos; omega)

/-- The loop of `intern_core` at an empty slot, up to `finish`. -/
theorem alone_enter_slot (t me fuel n : ℕ) (name : List UInt8) (hn : m.frameCount < T.capacity)
    (hempty : m.hashes i = 0) (hclaim : m.claiming i = claimUnrecorded) (hh : hash ≠ 0) :
    Pool.Alone (InternOp.exec T) (some <$> T.finish t i hash name)
      { m with
        hashes := upd m.hashes i hash
        claiming := upd m.claiming i (if me = claimUnrecorded then claimAnonymous else me) }
      (T.internLoop t me fuel hash name (n + 1) i) m := by
  refine .turn ?_
  show Pool.Alone _ _ _ (if m.hashes i = hash then _ else if m.hashes i = 0 then _ else _) m
  rw [if_neg (show ¬ m.hashes i = hash by rw [hempty]; exact hh.symm), if_pos hempty]
  refine .turn ?_
  show Pool.Alone _ _ _ (if T.capacity ≤ m.frameCount then _ else _) m
  rw [if_neg (Nat.not_le_of_lt hn)]
  refine .turn ?_
  show Pool.Alone _ _ _ (if decide (m.hashes i = 0) = true then _ else _)
    { m with hashes := InternOp.cas m.hashes i 0 hash }
  rw [InternOp.cas, if_pos hempty, if_pos (decide_eq_true hempty)]
  refine .turn ?_
  show Pool.Alone _ _ _ (if decide (m.claiming i = claimUnrecorded) = true then _ else _)
    { m with
      hashes := upd m.hashes i hash
      claiming := InternOp.cas m.claiming i claimUnrecorded _ }
  rw [InternOp.cas, if_pos hclaim, if_pos (decide_eq_true hclaim)]
  exact .refl

/-- `intern_core` of a name that meets an empty slot, up to `finish`. -/
theorem alone_enter (t me fuel : ℕ) (hn : m.frameCount < T.capacity)
    (hi : T.pos (T.hash name) 0 = i) (hempty : m.hashes i = 0)
    (hclaim : m.claiming i = claimUnrecorded) (hh : T.hash name ≠ 0) :
    Pool.Alone (InternOp.exec T) (some <$> T.finish t i (T.hash name) name)
      { m with
        hashes := upd m.hashes i (T.hash name)
        claiming := upd m.claiming i (if me = claimUnrecorded then claimAnonymous else me) }
      (T.internCore t me fuel name) m := by
  obtain ⟨n, hturns⟩ := exists_turns T
  rw [internCore, hturns, T.pos_zero, hi]
  exact alone_enter_slot t me fuel n name hn hempty hclaim hh

/-- `intern_core` of a name whose claimant is reported dead, up to `finish`. -/
theorem alone_rescue {owner : ℕ} (hfuel : internSpinLimit ≤ fuel)
    (hi : T.pos (T.hash name) 0 = i) (hhash : m.hashes i = T.hash name)
    (hid : m.ids i = idUnpublished) (howner : m.claiming i = owner) (h0 : owner ≠ claimUnrecorded)
    (ha : owner ≠ claimAnonymous) (hdead : m.alive owner = false) :
    Pool.Alone (InternOp.exec T) (some <$> T.finish t i (T.hash name) name)
      { m with claiming := upd m.claiming i me } (T.internCore t me fuel name) m := by
  obtain ⟨n, hturns⟩ := exists_turns T
  rw [internCore, hturns, T.pos_zero, hi]
  refine .turn ?_
  show Pool.Alone _ _ _ (if m.hashes i = T.hash name then _ else _) m
  rw [if_pos hhash]
  have hwait : fuel + 1 = fuel - internSpinLimit + 1 + internSpinLimit := by omega
  rw [hwait]
  exact .trans (.of_run (run_wait_takeOver hid howner h0 ha hdead)) .refl

/-- The loop of `intern_core` at an empty slot. -/
theorem run_internLoop_new (t me fuel n : ℕ) (name : List UInt8)
    (hn : m.frameCount < T.capacity) (hempty : m.hashes i = 0) (hid : m.ids i = idUnpublished)
    (hclaim : m.claiming i = claimUnrecorded) (hh : hash ≠ 0) :
    ∃ m', (T.internLoop t me fuel hash name (n + 1) i).run (InternOp.exec T) m =
        some (some (.ok (m.frameCount + 1)), m') ∧
      Entered m m' i (.forName name hash) ∧ m'.hashes = upd m.hashes i hash ∧
      (∀ j, j ≠ i → m'.claiming j = m.claiming j) ∧
      m'.records = upd m.records (m.frameCount + 1) (.forName name hash) := by
  have henter := alone_enter_slot t me fuel n name hn hempty hclaim hh
  let m₁ : InternMem := { m with
    hashes := upd m.hashes i hash
    claiming := upd m.claiming i (if me = claimUnrecorded then claimAnonymous else me) }
  obtain ⟨m', hrun, hent, hhashes, hclaiming, hrecords⟩ : ∃ m',
      (T.finish t i hash name).run (InternOp.exec T) m₁ = some (.ok (m.frameCount + 1), m') ∧
      Entered m₁ m' i (.forName name hash) ∧ m'.hashes = m₁.hashes ∧ m'.claiming = m₁.claiming ∧
        m'.records = upd m₁.records (m.frameCount + 1) (.forName name hash) := run_finish hn hid
  refine ⟨m', henter.run_eq.trans (run_map hrun), ?_, hhashes, fun j hj => ?_, hrecords⟩
  · exact ⟨hent.ids, hent.frameCount, hent.records, hent.alive, hent.wrapped⟩
  · rw [hclaiming]
    exact upd_of_ne _ _ hj

/-- `intern_core` of a name that meets an empty slot. -/
theorem run_internCore_new (hn : m.frameCount < T.capacity) (hi : T.pos (T.hash name) 0 = i)
    (hempty : m.hashes i = 0) (hid : m.ids i = idUnpublished)
    (hclaim : m.claiming i = claimUnrecorded) (hh : T.hash name ≠ 0) :
    ∃ m', (T.internCore t me fuel name).run (InternOp.exec T) m =
        some (some (.ok (m.frameCount + 1)), m') ∧
      Entered m m' i (.forName name (T.hash name)) ∧
      m'.hashes = upd m.hashes i (T.hash name) ∧ ∀ j, j ≠ i → m'.claiming j = m.claiming j := by
  obtain ⟨n, hturns⟩ := exists_turns T
  rw [internCore, hturns, T.pos_zero, hi]
  obtain ⟨m', hrun, hent, hhashes, hclaiming, -⟩ :=
    run_internLoop_new t me fuel n name hn hempty hid hclaim hh
  exact ⟨m', hrun, hent, hhashes, hclaiming⟩

/-- `intern_core` of a name that meets its own slot. -/
theorem run_internCore_known (hhash : m.hashes (T.pos (T.hash name) 0) = T.hash name)
    (hid : m.ids (T.pos (T.hash name) 0) = id) (h0 : id ≠ idUnpublished) (hlt : id < T.maxFrames)
    (hname : (m.records id).nameMatches name = true) :
    (T.internCore t me fuel name).run (InternOp.exec T) m = some (some (.ok id), m) := by
  obtain ⟨n, hturns⟩ := exists_turns T
  rw [internCore, hturns, T.pos_zero]
  generalize T.pos (T.hash name) 0 = i at hhash hid ⊢
  subst hid
  have hf : m.ids i ≠ idFailed := by
    have := T.maxFrames_lt
    unfold idFailed
    omega
  show (if m.hashes i = T.hash name then _ else _ : InternProg _).run _ m = _
  rw [if_pos hhash]
  rw [Prog.run_seq (run_wait_published rfl h0)]
  exact run_map (run_resolve hlt hf hname)

end Run

end InternTable

end TfTree
