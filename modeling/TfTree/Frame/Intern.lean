import TfTree.Frame.Invariant

/-!
# Interning under any interleaving

Interners and readers of the frame table, with deaths at any step and any answers of the
liveness test.

* `sat_finish`, `sat_wait`, `sat_internLoop`, `sat_findLoop`: the triples of the programs.
* `sat_internLoop_known`, `sat_findLoop_known`: calls for a name that is published.
* `intern_safe`: two results agree exactly when their names do, ids are in range, published
  ids and records never change, and an interned name is found from then on.
* `shares_truncated`, `shares_wrapped`: two names with one id, because a record stores 48
  bytes of a name, and because a counter of 32 bits wraps.
-/

namespace TfTree

open Conc

namespace InternMem

variable {T : InternTable} {m m' : InternMem} {t i id hash d : ℕ} {name : List UInt8}

/-! ## Triples -/

section Triples

open InternTable

variable {α : Type} {Q : α → InternMem → Prop}

/-- The triple of a program of thread `t`. -/
abbrev Sat (T : InternTable) (t : ℕ) (p : InternProg α) (Q : α → InternMem → Prop)
    (m : InternMem) : Prop :=
  p.wp (InternOp.exec T) (Pool.Rely Fits (Inv T) Keeps t) (Pool.Guar Fits (Inv T) Keeps t) Q m

/-- An access, and the program behind it. -/
theorem sat_op {o : InternOp} {f : o.Res → InternProg α}
    (h : ∀ m', Keeps t m m' → Inv T m' → Fits m' →
      (Fits (o.exec T m').2 → Moves T t m' (o.exec T m').2) ∧
        Sat T t (f (o.exec T m').1) Q (o.exec T m').2) :
    Sat T t (Prog.op o >>= f) Q m :=
  Prog.wp_seq fun m' ⟨hfit, hJ, hK⟩ => h m' hK hJ hfit

/-- An access that only reads. -/
theorem sat_load {o : InternOp} (ho : ∀ m, (o.exec T m).2 = m) {f : o.Res → InternProg α}
    (h : ∀ m', Keeps t m m' → Inv T m' → Sat T t (f (o.exec T m').1) Q m') :
    Sat T t (Prog.op o >>= f) Q m := by
  refine sat_op fun m' hK hJ _ => ?_
  rw [ho m']
  exact ⟨fun _ => .refl hJ, h m' hK hJ⟩

theorem sat_ite {c : Prop} [Decidable c] {p q : InternProg α} (hp : c → Sat T t p Q m)
    (hq : ¬ c → Sat T t q Q m) : Sat T t (if c then p else q) Q m := by
  by_cases hc : c
  · rw [if_pos hc]
    exact hp hc
  · rw [if_neg hc]
    exact hq hc

/-- Nothing is left to prove once the counter has wrapped. -/
theorem sat_unfit {p : InternProg α} (hm : ¬ Fits m) (hQ : ∀ a, Q a m) : Sat T t p Q m := by
  cases p with
  | ret a => exact hQ a
  | abort => trivial
  | call o k => exact fun m' hR => absurd (hR.2.2.fits hR.1) hm

/-- A published record is read as it stands. -/
theorem sat_nameMatches {Q : Bool → InternMem → Prop} (hs : Shows T m i id)
    (hQ : ∀ m', Keeps t m m' → Q ((m.records id).nameMatches name) m') :
    Sat T t (T.nameMatches id name) Q m := by
  rw [nameMatches, if_neg (by have := hs.lt; omega)]
  refine sat_load (fun _ => rfl) fun m₁ hK₁ _ => ?_
  refine sat_load (fun _ => rfl) fun m₂ hK₂ _ => ?_
  have hK := hK₁.trans hK₂
  have hlen : (m₁.records id).nameLen = (m.records id).nameLen := by
    rw [(hK₁.visible id i hs.visible).2]
  have hname : (m₂.records id).name = (m.records id).name := by
    rw [(hK.visible id i hs.visible).2]
  show Q (FrameRecord.nameMatches ⟨0, (m₂.records id).name, (m₁.records id).nameLen⟩ name) m₂
  rw [hlen, hname]
  exact hQ m₂ hK

/-- `resolve` of a published id. -/
theorem sat_resolve {Q : Except FrameError ℕ → InternMem → Prop} (hs : Shows T m i id)
    (hQ : ∀ m', Keeps t m m' → Q (if (m.records id).nameMatches name then .ok id
      else .error (.frameHashCollision hash)) m') :
    Sat T t (T.resolve id hash name) Q m := by
  rw [resolve, if_neg hs.ne_failed]
  exact Prog.wp_seq (sat_nameMatches hs hQ)

/-- What a result says: an id is published, unless the counter has wrapped. -/
def Good (T : InternTable) (name : List UInt8) (r : Except FrameError ℕ) (m : InternMem) : Prop :=
  Fits m → ∀ id, r = .ok id → Published T m name id

theorem sat_resolve_good (hh : ∀ name, T.hash name ≠ 0) (hi : m.hashes i = T.hash name)
    (hid : id = idFailed ∨ Shows T m i id) :
    Sat T t (T.resolve id (T.hash name) name) (Good T name) m := by
  rcases hid with rfl | hs
  · rw [resolve, if_pos rfl]
    exact fun _ _ h => by cases h
  · refine sat_resolve hs fun m' hK _ id' h => ?_
    split_ifs at h with hmatch
    cases h
    refine ⟨i, hs.stays hK.toStays, hK.hash_eq (hh name) hi, ?_⟩
    rw [(hK.visible id i hs.visible).2]
    exact hmatch

/-- What `publish` of a published name reports. -/
theorem sat_publish {Q : ℕ → InternMem → Prop} {value : ℕ}
    (hmoves : ∀ m', Keeps t m m' → Inv T m' → Moves T t m' (InternOp.exec T (.casId i value) m').2)
    (hQ : ∀ m', Keeps t m m' → Inv T m' →
      let m'' := (InternOp.exec T (.casId i value) m').2
      (m'.ids i = idUnpublished → Q value m'') ∧
      (m'.ids i ≠ idUnpublished → m'' = m' → Q (m'.ids i) m')) :
    Sat T t (publish i value) Q m := by
  refine sat_op fun m' hK hJ _ => ⟨fun _ => hmoves m' hK hJ, ?_⟩
  obtain ⟨hempty, hfull⟩ := hQ m' hK hJ
  show Q (if m'.ids i = idUnpublished then value else m'.ids i) _
  by_cases h : m'.ids i = idUnpublished
  · rw [if_pos h]
    exact hempty h
  · have hsame : (InternOp.exec T (.casId i value) m').2 = m' := by
      simp only [InternOp.exec, InternOp.cas, InternOp.publishStatus, if_neg h,
        if_neg fun hc : _ ∧ _ => h hc.1]
    rw [if_neg h, hsame]
    exact hfull h hsame

/-- A store to the record of an id that the thread owns. -/
theorem sat_store {o : InternOp} {g : FrameRecord → FrameRecord}
    (ho : ∀ m, (o.exec T m).2 = { m with records := upd m.records id (g (m.records id)) })
    (hid : m.status id = .owned t) {f : o.Res → InternProg α}
    (h : ∀ r m', Stays m m' → m'.status id = .owned t → m'.records id = g (m.records id) →
      Sat T t (f r) Q m') :
    Sat T t (Prog.op o >>= f) Q m := by
  refine sat_op fun m' hK hJ _ => ?_
  rw [ho m']
  obtain ⟨hown, hrec⟩ := hK.owned id hid
  have hmoves := moves_record hJ hown (g (m'.records id))
  refine ⟨fun _ => hmoves, h _ _ ?_ hown ?_⟩
  · exact hK.toStays.trans hmoves.stays
  · show upd m'.records id (g (m'.records id)) id = g (m.records id)
    rw [upd_self, hrec]

/-- The record of an id is complete before anybody sees it. -/
theorem sat_writeRecord {f : Unit → InternProg α} (hid : m.status id = .owned t)
    (hlt : id < T.maxFrames)
    (h : ∀ m', Stays m m' → m'.status id = .owned t → m'.records id = .forName name hash →
      Sat T t (f ()) Q m') :
    Sat T t (T.writeRecord id hash name >>= f) Q m := by
  rw [writeRecord, if_neg (by omega)]
  refine sat_store (g := fun r => { r with nameHash := hash }) (fun _ => rfl) hid ?_
  intro _ m₁ hS₁ hid₁ hrec₁
  refine sat_store (g := fun r => { r with name := (FrameRecord.forName name hash).name })
    (fun _ => rfl) hid₁ ?_
  intro _ m₂ hS₂ hid₂ hrec₂
  refine sat_store (g := fun r => { r with nameLen := (FrameRecord.forName name hash).nameLen })
    (fun _ => rfl) hid₂ ?_
  intro _ m₃ hS₃ hid₃ hrec₃
  refine h m₃ ((hS₁.trans hS₂).trans hS₃) hid₃ ?_
  rw [hrec₃, hrec₂, hrec₁]
  rfl

/-- The end of a failed `finish`: the slot holds a sentinel or the id of a rescuer. -/
theorem sat_giveUp (hh : ∀ name, T.hash name ≠ 0) (hi : m.hashes i = T.hash name) :
    Sat T t (publish i idFailed >>= fun other =>
      if other = idFailed then pure (.error .capacityExceeded)
      else T.resolve other (T.hash name) name) (Good T name) m := by
  refine Prog.wp_seq (sat_publish (fun m' _ hJ => moves_fail hJ i) ?_)
  intro m' hK hJ
  refine ⟨fun _ => ?_, fun hne _ => ?_⟩
  · rw [if_pos rfl]
    exact fun _ _ h => by cases h
  · split_ifs with hf
    · exact fun _ _ h => by cases h
    · exact sat_resolve_good hh (hK.hash_eq (hh name) hi) (hJ.shows_of_ids rfl hne)

/-- The end of a successful `finish`: the own id, or that of a rescuer. -/
theorem sat_settle (hh : ∀ name, T.hash name ≠ 0) (hi : m.hashes i = T.hash name)
    (hid : m.status id = .owned t) (hlt : id < T.maxFrames) :
    Sat T t (T.writeRecord id (T.hash name) name >>= fun _ => publish i id >>= fun winner =>
      if winner = id then pure (.ok id) else T.resolve winner (T.hash name) name)
      (Good T name) m := by
  refine sat_writeRecord hid hlt fun m₁ hS hid₁ hrec₁ => ?_
  have hi₁ := hS.hash_eq (hh name) hi
  refine Prog.wp_seq (sat_publish ?_ ?_)
  · intro m' hK hJ
    obtain ⟨hown, hrec⟩ := hK.owned id hid₁
    exact moves_publish hJ hown (hK.hash_eq (hh name) hi₁) (hrec.trans hrec₁)
  · intro m' hK hJ
    obtain ⟨hown, hrec⟩ := hK.owned id hid₁
    have hi' := hK.hash_eq (hh name) hi₁
    have hfail : id ≠ idFailed := by
      have := T.maxFrames_lt
      unfold idFailed
      omega
    refine ⟨fun hempty => ?_, fun hne _ => ?_⟩
    · rw [if_pos rfl]
      intro _ id' h
      cases h
      refine ⟨i, ⟨?_, hlt, hfail⟩, hi', ?_⟩
      · show InternOp.publishStatus m' i id id = .visible i
        rw [InternOp.publishStatus, if_pos ⟨hempty, hfail⟩, upd_self]
      · show (m'.records id).nameMatches name = true
        rw [hrec, hrec₁, FrameRecord.forName_matches]
    · have hshows := hJ.shows_of_ids rfl hne
      -- an id that the thread owns is in no slot
      rw [if_neg]
      · exact sat_resolve_good hh hi' hshows
      · intro heq
        rcases hshows with hf | hs
        · exact hfail (heq.symm.trans hf)
        · have hvis := hs.visible
          rw [heq, hown] at hvis
          cases hvis

/-- `finish`, by the thread that won the slot or took it over. -/
theorem sat_finish (hh : ∀ name, T.hash name ≠ 0) (hi : m.hashes i = T.hash name) :
    Sat T t (T.finish t i (T.hash name) name) (Good T name) m := by
  refine sat_op fun m₁ hK₁ hJ₁ _ => ⟨fun hfit => (moves_addCount hJ₁ hfit).1, ?_⟩
  have hi₁ := hK₁.hash_eq (hh name) hi
  by_cases hfit : Fits (InternOp.exec T (.addCount t) m₁).2
  · have hadd := (moves_addCount hJ₁ hfit).2
    show Sat T t (if T.capacity ≤ m₁.frameCount then _ else _) _ _
    by_cases hn : T.capacity ≤ m₁.frameCount
    · rw [if_neg (by omega)] at hadd
      rw [if_pos hn]
      refine sat_op fun m₂ hK₂ hJ₂ _ => ?_
      have hmoves := moves_subCount hJ₂ (hK₂.failing hadd)
      have hi₂ : m₂.hashes i = T.hash name := hK₂.hash_eq (hh name) hi₁
      exact ⟨fun _ => hmoves, sat_giveUp hh hi₂⟩
    · rw [if_pos (by omega)] at hadd
      rw [if_neg hn]
      have hlt : m₁.frameCount + 1 < T.maxFrames := by
        unfold InternTable.capacity at hn
        omega
      exact sat_settle hh hi₁ hadd hlt
  · exact sat_unfit hfit fun _ h => absurd h hfit

section Wait

variable {Q : Option Wait → InternMem → Prop}

/-- What may be said of the end of a wait. -/
def Waited (T : InternTable) (i : ℕ) (w : Option Wait) (m : InternMem) : Prop :=
  ∀ id, w = some (.published id) → id = idFailed ∨ Shows T m i id

/-- The load that ends a wait, if it finds an id. -/
theorem waited_published (hJ : Inv T m) (hid : m.ids i ≠ idUnpublished) :
    Waited T i (some (.published (m.ids i))) m := by
  intro id h
  cases h
  exact hJ.shows_of_ids rfl hid

/-- The takeover of an entry, and the wait that follows a lost one. -/
theorem sat_takeOver {recoverable : Bool} {owner me : ℕ} {again : InternProg (Option Wait)}
    (hQ : ∀ w m', Stays m m' → Waited T i w m' → Q w m')
    (hagain : ∀ m', Stays m m' → Sat T t again Q m') :
    Sat T t (if recoverable then do
        let won ← InternProg.casClaim i owner me
        if won then do
          let id ← InternProg.loadId i
          pure (some (if id ≠ idUnpublished then Wait.published id else .takenOver))
        else again
      else again) Q m := by
  refine sat_ite (fun _ => ?_) fun _ => hagain m (.refl m)
  refine sat_op fun m₁ hK₁ hJ₁ _ => ⟨fun _ => moves_claiming hJ₁ _, ?_⟩
  have hS₁ : Stays m (InternOp.exec T (.casClaim i owner me) m₁).2 :=
    hK₁.toStays.trans ⟨fun _ _ => rfl, fun _ _ => rfl, fun _ _ h => ⟨h, rfl⟩⟩
  refine sat_ite (fun _ => ?_) fun _ => hagain _ hS₁
  refine sat_load (fun _ => rfl) fun m₂ hK₂ hJ₂ => ?_
  refine hQ _ _ (hS₁.trans hK₂.toStays) ?_
  show Waited T i (some (if m₂.ids i ≠ idUnpublished then .published (m₂.ids i) else .takenOver)) m₂
  by_cases hid : m₂.ids i ≠ idUnpublished
  · rw [if_pos hid]
    exact waited_published hJ₂ hid
  · rw [if_neg hid]
    exact fun _ h => by cases h

/-- `wait_for_publish` reports a sentinel or a published id. -/
theorem sat_wait {role : Role} {fuel spins rounds : ℕ}
    (hQ : ∀ w m', Stays m m' → Waited T i w m' → Q w m') :
    Sat T t (waitForPublish i role fuel spins rounds) Q m := by
  induction fuel generalizing m spins rounds with
  | zero => exact hQ none m (.refl m) fun _ h => by cases h
  | succ fuel ih =>
    have hagain : ∀ {m' spins rounds}, Stays m m' →
        Sat T t (waitForPublish i role fuel spins rounds) Q m' := fun hS =>
      ih fun w m'' hS' h => hQ w m'' (hS.trans hS') h
    have hend : ∀ {m'} (w : Wait), Stays m m' → (∀ id, w ≠ .published id) → Q (some w) m' :=
      fun w hS h => hQ _ _ hS fun id heq => absurd (Option.some.inj heq) (h id)
    refine sat_load (fun _ => rfl) fun m₁ hK₁ hJ₁ => ?_
    have hS₁ := hK₁.toStays
    refine sat_ite (fun hid => hQ _ _ hS₁ (waited_published hJ₁ hid)) fun _ => ?_
    refine sat_ite (fun _ => hagain hS₁) fun _ => ?_
    refine sat_load (fun _ => rfl) fun m₂ hK₂ _ => ?_
    have hS₂ := hS₁.trans hK₂.toStays
    cases role with
    | reader =>
      refine sat_ite (fun _ => ?_) fun _ => sat_ite (fun _ => ?_) fun _ => ?_
      · exact sat_ite (fun _ => hend _ hS₂ nofun) fun _ => hagain hS₂
      · refine sat_load (fun _ => rfl) fun m₃ hK₃ _ => ?_
        have hS₃ := hS₂.trans hK₃.toStays
        exact sat_ite (fun _ => hagain hS₃) fun _ => hend _ hS₃ nofun
      · exact sat_ite (fun _ => hend _ hS₂ nofun) fun _ => hagain hS₂
    | interner me =>
      refine sat_ite (fun _ => ?_) fun _ => sat_ite (fun _ => ?_) fun _ => ?_
      · exact sat_ite (fun _ => hend _ hS₂ nofun) fun _ => hagain hS₂
      · exact sat_takeOver (fun w m' hS => hQ w m' (hS₂.trans hS))
          fun m' hS => hagain (hS₂.trans hS)
      · refine sat_load (fun _ => rfl) fun m₃ hK₃ _ => ?_
        have hS₃ := hS₂.trans hK₃.toStays
        exact sat_takeOver (fun w m' hS => hQ w m' (hS₃.trans hS))
          fun m' hS => hagain (hS₃.trans hS)

end Wait

/-- A wait on a published id ends at its first load. -/
theorem sat_wait_shows {role : Role} {fuel spins rounds : ℕ} {Q : Option Wait → InternMem → Prop}
    (hs : Shows T m i id) (hQ : ∀ m', Keeps t m m' → Q (some (.published id)) m') :
    Sat T t (waitForPublish i role (fuel + 1) spins rounds) Q m := by
  refine sat_load (fun _ => rfl) fun m' hK hJ => ?_
  have hids : m'.ids i = id := hJ.visible i id (hs.stays hK.toStays).visible
  have hne : m'.ids i ≠ idUnpublished := by
    have := hJ.range id (by rw [(hs.stays hK.toStays).visible]; nofun)
    rw [hids]
    unfold idUnpublished
    omega
  show Sat T t (if m'.ids i ≠ idUnpublished then pure (some (.published (m'.ids i))) else _) Q m'
  rw [if_pos hne, hids]
  exact hQ m' hK

theorem sat_map {β : Type} {f : α → β} {p : InternProg α} {Q : β → InternMem → Prop}
    (h : Sat T t p (fun a m => Q (f a) m) m) : Sat T t (f <$> p) Q m := by
  rw [← bind_pure_comp]
  exact Prog.wp_seq h

theorem sat_mono {p : InternProg α} {Q' : α → InternMem → Prop} (h : Sat T t p Q m)
    (hQ : ∀ a m, Q a m → Q' a m) : Sat T t p Q' m := Prog.wp_mono hQ h

/-- `intern_core` from slot `d` of the probe on, behind slots of other hashes. -/
theorem sat_internLoop (hh : ∀ name, T.hash name ≠ 0) {me fuel n : ℕ}
    (hpassed : Passed T m (T.hash name) d) :
    Sat T t (T.internLoop t me fuel (T.hash name) name n (T.pos (T.hash name) d))
      (fun r m => ∀ r', r = some r' → Good T name r' m) m := by
  have herror : ∀ {m} {e : FrameError}, ∀ r', some (.error e) = some r' → Good T name r' m := by
    intro m e r' h
    cases h
    exact fun _ _ h => by cases h
  have hgood : ∀ {p m}, Sat T t p (Good T name) m →
      Sat T t (some <$> p) (fun r m => ∀ r', r = some r' → Good T name r' m) m := by
    intro p m h
    refine sat_map (sat_mono h fun r m hr r' heq => ?_)
    cases heq
    exact hr
  induction n generalizing m d with
  | zero => exact herror
  | succ n ih =>
    refine sat_load (fun _ => rfl) fun m₁ hK₁ _ => ?_
    have hpassed₁ := hpassed.stays hK₁.toStays
    refine sat_ite (fun hcur => ?_) fun hne => sat_ite (fun _ => ?_) fun hne0 => ?_
    · refine Prog.wp_seq (sat_wait fun w m₂ hS₂ hw => ?_)
      have hi₂ := hS₂.hash_eq (hh name) hcur
      cases w with
      | none => exact fun _ h => by cases h
      | some w =>
        cases w with
        | published id => exact hgood (sat_resolve_good hh hi₂ (hw id rfl))
        | takenOver => exact hgood (sat_finish hh hi₂)
        | abandoned => exact herror
        | contended => exact herror
    · refine sat_load (fun _ => rfl) fun m₂ hK₂ _ => ?_
      have hpassed₂ := hpassed₁.stays hK₂.toStays
      refine sat_ite (fun _ => herror) fun _ => ?_
      refine sat_op fun m₃ hK₃ hJ₃ _ => ?_
      have hpassed₃ := hpassed₂.stays hK₃.toStays
      have hmoves := moves_casHash (t := t) hh hJ₃ hpassed₃
      have hpassed₄ := hpassed₃.stays hmoves.stays
      refine ⟨fun _ => hmoves, ?_⟩
      refine sat_ite (fun hwon => ?_) fun _ => ih hpassed₄
      have hempty : m₃.hashes (T.pos (T.hash name) d) = 0 := of_decide_eq_true hwon
      refine sat_op fun m₅ hK₅ hJ₅ _ => ?_
      have hmoves₅ := moves_claiming (t := t) hJ₅ (InternOp.cas m₅.claiming
        (T.pos (T.hash name) d) claimUnrecorded
        (if me = claimUnrecorded then claimAnonymous else me))
      have hpassed₆ := (hpassed₄.stays hK₅.toStays).stays hmoves₅.stays
      refine ⟨fun _ => hmoves₅, sat_ite (fun _ => hgood (sat_finish hh ?_)) fun _ => ih hpassed₆⟩
      refine hK₅.hash_eq (hh name) ?_
      show InternOp.cas m₃.hashes (T.pos (T.hash name) d) 0 (T.hash name) _ = _
      rw [InternOp.cas, if_pos hempty, upd_self]
    · rw [T.pos_succ]
      exact ih (hpassed₁.succ hne0 hne)

/-- `find_core` from slot `d` of the probe on. -/
theorem sat_findLoop (hh : ∀ name, T.hash name ≠ 0) {fuel n : ℕ} :
    Sat T t (T.findLoop fuel (T.hash name) name n (T.pos (T.hash name) d))
      (fun r m => Fits m → ∀ id, r = some (.ok (some id)) → Published T m name id) m := by
  induction n generalizing m d with
  | zero => exact fun _ _ h => by cases h
  | succ n ih =>
    refine sat_load (fun _ => rfl) fun m₁ hK₁ _ => ?_
    refine sat_ite (fun _ => fun _ _ h => by cases h) fun _ => sat_ite (fun hcur => ?_) fun _ => ?_
    · refine Prog.wp_seq (sat_wait fun w m₂ hS₂ hw => ?_)
      have hi₂ := hS₂.hash_eq (hh name) hcur
      cases w with
      | none => exact fun _ _ h => by cases h
      | some w =>
        cases w with
        | published id =>
          refine sat_ite (fun _ => fun _ _ h => by cases h) fun _ => ?_
          refine Prog.wp_seq (sat_mono (sat_resolve_good hh hi₂ (hw id rfl)) ?_)
          intro r m hr hfit id' h
          cases r with
          | error e => cases h
          | ok v =>
            cases h
            exact hr hfit id' rfl
        | takenOver => exact fun _ _ h => by cases h
        | abandoned => exact fun _ _ h => by cases h
        | contended => exact fun _ _ h => by cases h
    · rw [T.pos_succ]
      exact ih

/-! ## Lookups of a published name -/

/-- Slot `e` of the probe of `name` shows `id`, for `name`. -/
structure Known (T : InternTable) (m : InternMem) (name : List UInt8) (id e : ℕ) : Prop where
  shows : Shows T m (T.pos (T.hash name) e) id
  hashed : m.hashes (T.pos (T.hash name) e) = T.hash name
  passed : Passed T m (T.hash name) e
  named : (m.records id).nameMatches name = true

theorem Known.stays {e : ℕ} (hh : ∀ name, T.hash name ≠ 0) (h : Known T m name id e)
    (hS : Stays m m') : Known T m' name id e where
  shows := h.shows.stays hS
  hashed := hS.hash_eq (hh name) h.hashed
  passed := h.passed.stays hS
  named := by
    rw [(hS.visible id _ h.shows.visible).2]
    exact h.named

theorem Published.known (hh : ∀ name, T.hash name ≠ 0) (hJ : Inv T m)
    (h : Published T m name id) : ∃ e, e < T.len ∧ Known T m name id e := by
  obtain ⟨i, hs, hi, hname⟩ := h
  obtain ⟨e, he, rfl, hpassed⟩ := hJ.placed_lt (hh name) hi
  exact ⟨e, he, hs, hi, hpassed, hname⟩

theorem sat_resolve_known {e : ℕ} {Q : Except FrameError ℕ → InternMem → Prop}
    (h : Known T m name id e) (hQ : ∀ m, Q (.ok id) m) :
    Sat T t (T.resolve id hash name) Q m := by
  refine sat_resolve h.shows fun m' _ => ?_
  rw [if_pos h.named]
  exact hQ m'

/-- `intern_core` returns the published id. -/
theorem sat_internLoop_known (hh : ∀ name, T.hash name ≠ 0) {me fuel n e : ℕ}
    (h : Known T m name id e) (hd : d ≤ e) (hn : e < d + n) :
    Sat T t (T.internLoop t me fuel (T.hash name) name n (T.pos (T.hash name) d))
      (fun r _ => r = some (.ok id)) m := by
  induction n generalizing m d with
  | zero => omega
  | succ n ih =>
    refine sat_load (fun _ => rfl) fun m₁ hK₁ _ => ?_
    have h₁ := h.stays hh hK₁.toStays
    rcases Nat.lt_or_eq_of_le hd with hlt | rfl
    · obtain ⟨h0, hne⟩ := h₁.passed d hlt
      refine sat_ite (fun hcur => absurd hcur hne) fun _ => ?_
      refine sat_ite (fun hcur => absurd hcur h0) fun _ => ?_
      rw [T.pos_succ]
      exact ih h₁ hlt (by omega)
    · refine sat_ite (fun _ => ?_) fun hne => absurd h₁.hashed hne
      refine Prog.wp_seq (sat_wait_shows h₁.shows fun m₂ hK₂ => ?_)
      exact sat_map (sat_resolve_known (h₁.stays hh hK₂.toStays) fun _ => rfl)

/-- `find_core` returns the published id. -/
theorem sat_findLoop_known (hh : ∀ name, T.hash name ≠ 0) {fuel n e : ℕ}
    (h : Known T m name id e) (hd : d ≤ e) (hn : e < d + n) :
    Sat T t (T.findLoop fuel (T.hash name) name n (T.pos (T.hash name) d))
      (fun r _ => r = some (.ok (some id))) m := by
  induction n generalizing m d with
  | zero => omega
  | succ n ih =>
    refine sat_load (fun _ => rfl) fun m₁ hK₁ _ => ?_
    have h₁ := h.stays hh hK₁.toStays
    rcases Nat.lt_or_eq_of_le hd with hlt | rfl
    · obtain ⟨h0, hne⟩ := h₁.passed d hlt
      refine sat_ite (fun hcur => absurd hcur h0) fun _ => ?_
      refine sat_ite (fun hcur => absurd hcur hne) fun _ => ?_
      rw [T.pos_succ]
      exact ih h₁ hlt (by omega)
    · refine sat_ite (fun h0 => absurd (h₁.hashed.symm.trans h0) (hh name)) fun _ => ?_
      refine sat_ite (fun _ => ?_) fun hne => absurd h₁.hashed hne
      refine Prog.wp_seq (sat_wait_shows h₁.shows fun m₂ hK₂ => ?_)
      refine sat_ite (fun hf => absurd hf h.shows.ne_failed) fun _ => ?_
      exact Prog.wp_seq (sat_resolve_known (h₁.stays hh hK₂.toStays) fun _ => rfl)

end Triples

end InternMem

/-! ## The pool -/

namespace InternPool

open InternMem

variable {T : InternTable} {calls : ℕ → FrameCall} {alive : ℕ → Bool} {s s' : InternPool}

/-- Thread `t` has returned `Ok` with an id. -/
def Found (s : InternPool) (t id : ℕ) : Prop := s.prog t = .ret (some (.ok (some id)))

/-- What the result of a thread says. -/
def Told (T : InternTable) (calls : ℕ → FrameCall) (t : ℕ) (r : FrameCall.Result)
    (m : InternMem) : Prop :=
  Fits m → ∀ id, r = some (.ok (some id)) → Published T m (calls t).name id

theorem pact : Pool.Pact (InternOp.exec T) judge Fits (Inv T) Keeps where
  refl := .refl
  trans := fun _ _ _ _ h h' => h.trans h'
  fits := fun o _ => fits_exec o
  env := by
    intro e m h
    refine ⟨h, fun hJ => ?_, fun i => ?_⟩
    · exact ⟨hJ.placed, hJ.shown, hJ.visible, hJ.recorded, hJ.range, hJ.full, hJ.count_lt⟩
    · exact ⟨⟨fun _ _ => rfl, fun _ _ => rfl, fun _ _ h => ⟨h, rfl⟩⟩, fun _ h => ⟨h, rfl⟩,
        fun h => h, fun h => h⟩

theorem told_stable (hh : ∀ name, T.hash name ≠ 0) (t : ℕ) (r : FrameCall.Result)
    (m m' : InternMem) (h : Told T calls t r m) (hK : Keeps t m m') : Told T calls t r m' :=
  fun hfit id hr => (h (hK.fits hfit) id hr).stays hh hK.toStays

/-- Every call meets its triple. -/
theorem sat_prog (hh : ∀ name, T.hash name ≠ 0) (t : ℕ) (m : InternMem) :
    Sat T t ((calls t).prog T t) (Told T calls t) m := by
  unfold Told
  cases calls t with
  | intern me fuel name =>
    refine Prog.wp_seq ?_
    rw [InternTable.internCore, T.pos_zero]
    refine sat_mono (sat_internLoop hh fun d' hd' => absurd hd' (by omega)) ?_
    intro r m hr hfit id h
    cases r with
    | none => cases h
    | some r =>
      cases r with
      | error e => cases h
      | ok v =>
        cases h
        exact hr _ rfl hfit id rfl
  | find fuel name =>
    show Sat T t (T.findCore fuel name) _ m
    rw [InternTable.findCore, T.pos_zero]
    exact sat_findLoop hh

/-- A call for a published name returns its id. -/
theorem sat_prog_known (hh : ∀ name, T.hash name ≠ 0) {t id : ℕ} {m : InternMem} (hJ : Inv T m)
    (h : Published T m (calls t).name id) :
    Sat T t ((calls t).prog T t) (fun r _ => r = some (.ok (some id))) m := by
  obtain ⟨e, he, hknown⟩ := h.known hh hJ
  generalize calls t = c at hknown
  cases c with
  | intern me fuel name =>
    refine Prog.wp_seq ?_
    rw [InternTable.internCore, T.pos_zero]
    have hturns : e < 0 + 2 * T.len := by omega
    refine sat_mono (sat_internLoop_known hh hknown (Nat.zero_le e) hturns) ?_
    rintro r m rfl
    rfl
  | find fuel name =>
    show Sat T t (T.findCore fuel name) _ m
    rw [InternTable.findCore, T.pos_zero]
    exact sat_findLoop_known hh hknown (Nat.zero_le e) (by omega)

/-- In every reachable state the invariant holds and every thread meets its triple. -/
theorem sound (hh : ∀ name, T.hash name ≠ 0)
    (hs : Reachable (step T) (init T calls alive) s) :
    Pool.Sound (InternOp.exec T) Fits (Inv T) Keeps (Told T calls) s :=
  pact.sound (told_stable hh) hs fun _ => ⟨inv_init alive, fun t => sat_prog hh t _⟩

/-- **Main theorem.** As long as the counter has not wrapped: two threads that return `Ok`
    have the same id if their names are equal, and then their names agree in hash and in the
    bytes that a record stores; ids are in `1..=capacity`; a published id never changes, and
    neither does its record, which is complete; and a call that starts after a thread has
    returned `Ok` for its name returns that id. -/
theorem intern_safe (hh : ∀ name, T.hash name ≠ 0)
    (hs : Reachable (step T) (init T calls alive) s) (hs' : Reachable (step T) s s')
    (hw : s'.mem.wrapped = false) :
    (∀ t u a b, s.Found t a → s.Found u b →
      ((calls t).name = (calls u).name → a = b) ∧
      (a = b → T.hash (calls t).name = T.hash (calls u).name ∧
        FrameRecord.stored (calls t).name = FrameRecord.stored (calls u).name)) ∧
    (∀ t a, s.Found t a → 1 ≤ a ∧ a ≤ T.capacity) ∧
    (∀ i, s.mem.ids i ≠ idUnpublished → s'.mem.ids i = s.mem.ids i) ∧
    (∀ i id, s.mem.ids i = id → id ≠ idUnpublished → id ≠ idFailed →
      (1 ≤ id ∧ id ≤ T.capacity) ∧ s'.mem.records id = s.mem.records id ∧
      ∃ name, s.mem.hashes i = T.hash name ∧
        s.mem.records id = .forName name (T.hash name)) ∧
    ∀ t u a r, s.Found t a → (calls u).name = (calls t).name →
      s.prog u = (calls u).prog T u → s'.prog u = .ret r → r = some (.ok (some a)) := by
  have hsound := sound hh hs
  obtain ⟨hfit, hstays⟩ := pact.stays (told_stable hh) (T := Stays)
    (fun _ _ _ h => h.toStays) (fun _ _ _ h h' => h.trans h') hs' hsound hw
  obtain ⟨hJ, hwp⟩ := hsound hfit
  have hpub : ∀ t a, s.Found t a → Published T s.mem (calls t).name a := by
    intro t a h
    have ht := hwp t
    rw [h] at ht
    exact ht hfit a rfl
  refine ⟨fun t u a b ha hb => ⟨fun hname => ?_, fun hab => ?_⟩, fun t a ha => ?_, ?_, ?_, ?_⟩
  · have hb' := hpub u b hb
    rw [← hname] at hb'
    exact (hpub t a ha).unique hh hJ hb'
  · subst hab
    exact (hpub t a ha).agree hJ (hpub u a hb)
  · exact (hpub t a ha).range hJ
  · exact hstays.ids
  · intro i id hids h0 hf
    subst hids
    have hvis := hJ.shown i h0 hf
    have hrange := hJ.range _ (by rw [hvis]; nofun)
    exact ⟨⟨hrange.1, hrange.2.1⟩, (hstays.visible _ i hvis).2, hJ.recorded i _ hvis⟩
  · intro t u a r ha hname hu hr
    -- from here on, thread `u` is held to returning `a`
    have ha' := hpub t a ha
    rw [← hname] at ha'
    have hsound' : Pool.Sound (InternOp.exec T) Fits (Inv T) Keeps
        (fun v r _ => v = u → r = some (.ok (some a))) s := by
      refine fun _ => ⟨hJ, fun v => ?_⟩
      by_cases hv : v = u
      · subst hv
        rw [hu]
        exact sat_mono (sat_prog_known hh hJ ha') fun r _ hr _ => hr
      · exact sat_mono (hwp v) fun _ _ _ hvu => absurd hvu hv
    have hend := pact.sound (fun _ _ _ _ h _ => h) hs' hsound'
    have hu' := (hend hw).2 u
    rw [hr] at hu'
    exact hu' rfl

/-! ## Two names with one id -/

/-- Thread `t` has not begun, has returned, or is dead. -/
def Idle (T : InternTable) (calls : ℕ → FrameCall) (s : InternPool) (t : ℕ) : Prop :=
  s.prog t = (calls t).prog T t ∨ ∀ o k, s.prog t ≠ .call o k

/-- No participant with a thread at work is reported dead. -/
def Truthful (T : InternTable) (calls : ℕ → FrameCall) (s : InternPool) : Prop :=
  ∀ t me, (calls t).me = some me → s.mem.alive me = false → Idle T calls s t

/-- The runs in which the liveness answers are truthful. -/
abbrev TruthfulRuns (T : InternTable) (calls : ℕ → FrameCall) : InternPool → InternPool → Prop :=
  Runs (step T) fun s _ => Truthful T calls s

section Alone

variable {t u me fuel id : ℕ} {p' : InternProg FrameCall.Result} {m' : InternMem}
  {name a b : List UInt8}

theorem exec_alive (o : InternOp) (m : InternMem) : (o.exec T m).2.alive = m.alive := by
  cases o <;> rfl

theorem Idle.other (h : Idle T calls s u) (hu : u ≠ t) (m : InternMem)
    (p : InternProg FrameCall.Result) : Idle T calls ⟨m, upd s.prog t p⟩ u := by
  have hsame : upd s.prog t p u = s.prog u := upd_of_ne _ _ hu
  rcases h with h | h
  · exact .inl (hsame.trans h)
  · exact .inr fun o k heq => h o k (hsame.symm.trans heq)

theorem Found.other (h : s.Found u id) (hu : u ≠ t) (m : InternMem)
    (p : InternProg FrameCall.Result) : Found ⟨m, upd s.prog t p⟩ u id :=
  (upd_of_ne s.prog p hu).trans h

/-- A thread at its end is idle. -/
theorem idle_of_end (m : InternMem) (prog : ℕ → InternProg FrameCall.Result)
    {p : InternProg FrameCall.Result} (hp : ∀ o k, p ≠ .call o k) :
    Idle T calls ⟨m, upd prog t p⟩ t :=
  .inr fun o k h => hp o k ((upd_self prog t p).symm.trans h)

theorem truthful_alone {m : InternMem} {p : InternProg FrameCall.Result}
    (hidle : ∀ u, u ≠ t → Idle T calls s u)
    (halive : ∀ me, (calls t).me = some me → m.alive me = true) :
    Truthful T calls ⟨m, upd s.prog t p⟩ := by
  intro u me hme hdead
  by_cases hu : u = t
  · subst hu
    exact absurd ((halive me hme).symm.trans hdead) (by decide)
  · exact (hidle u hu).other hu m p

/-- One thread runs while the others are idle. -/
theorem alone_runs (hidle : ∀ u, u ≠ t → Idle T calls s u)
    (halive : ∀ me, (calls t).me = some me → s.mem.alive me = true)
    (h : Pool.Alone (InternOp.exec T) p' m' (s.prog t) s.mem) :
    TruthfulRuns T calls s ⟨m', upd s.prog t p'⟩ := by
  have hself : upd s.prog t (s.prog t) = s.prog := by
    funext u
    by_cases hu : u = t
    · rw [hu, upd_self]
    · rw [upd_of_ne _ _ hu]
  have hruns : TruthfulRuns T calls ⟨s.mem, upd s.prog t (s.prog t)⟩ ⟨m', upd s.prog t p'⟩ :=
    h.runs (fun o m hm => by rw [exec_alive]; exact hm) (fun m p => truthful_alone hidle) halive
  rwa [hself] at hruns

/-- The same, for a whole call. -/
theorem intern_runs (hidle : ∀ u, Idle T calls s u) (hcall : calls t = .intern me fuel name)
    (hstart : s.prog t = (calls t).prog T t) (halive : s.mem.alive me = true)
    (hrun : (T.internCore t me fuel name).run (InternOp.exec T) s.mem = some (some (.ok id), m')) :
    TruthfulRuns T calls s ⟨m', upd s.prog t (.ret (some (.ok (some id))))⟩ := by
  refine alone_runs (fun u _ => hidle u) ?_ ?_
  · intro me' h
    rw [hcall] at h
    cases h
    exact halive
  · rw [hstart, hcall]
    exact .trans (.of_run hrun) .refl

end Alone

/-- Participants 1 and 2 intern one name each. -/
def pair (a b : List UInt8) (t : ℕ) : FrameCall := if t = 0 then .intern 1 0 a else .intern 2 0 b

/-- The second of two names with the same hash and the same stored bytes gets the id of the
    first. -/
theorem shares_truncated {a b : List UInt8} (hcap : 1 ≤ T.capacity) (h0 : T.hash a ≠ 0)
    (hhash : T.hash b = T.hash a) (hstored : FrameRecord.stored b = FrameRecord.stored a) :
    ∃ s s', TruthfulRuns T (pair a b) (init T (pair a b) fun _ => true) s ∧
      TruthfulRuns T (pair a b) s s' ∧ s'.mem.wrapped = false ∧
      s.Found 0 1 ∧ s.prog 1 = (pair a b 1).prog T 1 ∧ s'.Found 0 1 ∧ s'.Found 1 1 := by
  obtain ⟨m₁, hrun₁, hent, hhashes, -⟩ := T.run_internCore_new (t := 0) (m := .init fun _ => true)
    hcap rfl rfl rfl rfl h0
  have hpos : T.pos (T.hash b) 0 = T.pos (T.hash a) 0 := by rw [hhash]
  let s₁ : InternPool := ⟨m₁, upd (init T (pair a b) fun _ => true).prog 0
    (.ret (some (.ok (some 1))))⟩
  have hidle : ∀ u, Idle T (pair a b) s₁ u := by
    intro u
    by_cases hu : u = 0
    · subst hu
      exact idle_of_end _ _ nofun
    · exact Idle.other (.inl rfl) hu _ _
  have hruns₁ : TruthfulRuns T (pair a b) (init T (pair a b) fun _ => true) s₁ :=
    intern_runs (fun u => .inl rfl) rfl rfl rfl hrun₁
  have hknown : (T.internCore 1 2 0 b).run (InternOp.exec T) m₁ = some (some (.ok 1), m₁) := by
    refine T.run_internCore_known ?_ ?_ (by decide)
      (by unfold InternTable.capacity at hcap; omega) ?_
    · rw [hhashes, hpos, hhash, upd_self]
    · rw [hent.ids, hpos, upd_self]
      rfl
    · exact (congrArg (FrameRecord.nameMatches · b) hent.records).trans
        (FrameRecord.forName_matches.mpr hstored)
  have hruns₂ : TruthfulRuns T (pair a b) s₁
      ⟨m₁, upd s₁.prog 1 (.ret (some (.ok (some 1))))⟩ :=
    intern_runs hidle rfl rfl (congrFun hent.alive 2) hknown
  exact ⟨s₁, _, hruns₁, hruns₂, hent.wrapped, rfl, rfl, rfl, rfl⟩

/-- Participant 1 interns `a`; participants 2, 1, 2, … intern `b`, one after the other. -/
def rescuers (a b : List UInt8) : ℕ → FrameCall
  | 0 => .intern 1 0 a
  | 1 => .intern 2 0 b
  | k + 2 => .intern (1 + k % 2) internSpinLimit b

/-- `a` is interned, and `k + 1` participants have died on the entry of `b`. -/
structure Wedged (T : InternTable) (a b : List UInt8) (k : ℕ) (s : InternPool) : Prop where
  hashed : s.mem.hashes (T.pos (T.hash b) 0) = T.hash b
  unpublished : s.mem.ids (T.pos (T.hash b) 0) = idUnpublished
  claimed : s.mem.claiming (T.pos (T.hash b) 0) = 1 + (k + 1) % 2
  count : s.mem.frameCount = (1 + k) % 2 ^ 32
  found : s.Found 0 1
  idle : ∀ t, Idle T (rescuers a b) s t
  waiting : ∀ t, k + 2 ≤ t → s.prog t = (rescuers a b t).prog T t

section Wrap

variable {a b : List UInt8} {k t : ℕ} {p : InternProg FrameCall.Result} {m : InternMem}

/-- The program has an access to make. -/
def Working {α : Type} (p : InternProg α) : Prop := ∃ o k, p = .call o k

theorem Working.bind {α β : Type} {p : InternProg α} {g : α → InternProg β} (h : Working p) :
    Working (p >>= g) := by
  obtain ⟨o, k, rfl⟩ := h
  exact ⟨o, _, rfl⟩

theorem alone_alive {α : Type} {p p' : InternProg α} {m m' : InternMem}
    (h : Pool.Alone (InternOp.exec T) p' m' p m) : m'.alive = m.alive := by
  induction h with
  | refl => rfl
  | turn _ ih => exact ih.trans (exec_alive _ _)

/-- A thread that runs alone dies at its next access. -/
theorem alone_dies {m' : InternMem} (hidle : ∀ u, Idle T calls s u)
    (halive : ∀ me, (calls t).me = some me → s.mem.alive me = true) (hp : Working p)
    (h : Pool.Alone (InternOp.exec T) p m' (s.prog t) s.mem) :
    TruthfulRuns T calls s ⟨m', upd s.prog t .abort⟩ := by
  obtain ⟨o, f, rfl⟩ := hp
  have htruth : Truthful T calls ⟨m', upd s.prog t (.call o f)⟩ :=
    truthful_alone (fun u _ => hidle u) fun me hme => by rw [alone_alive h, halive me hme]
  refine (alone_runs (fun u _ => hidle u) halive h).step htruth (e := .die t) ?_
  show Pool.step _ _ _ _ = _
  simp only [Pool.step, upd_self, upd_upd]

theorem writeRecord_working {id hash : ℕ} {name : List UInt8} (h : id < T.maxFrames) :
    Working (T.writeRecord id hash name) := by
  rw [InternTable.writeRecord, if_neg (by omega)]
  exact ⟨_, _, rfl⟩

/-- Behind its `fetch_add`, a call has another access to make. -/
theorem finish_working (t i hash : ℕ) (name : List UInt8) (m : InternMem) :
    ∃ p, Working p ∧ Pool.Alone (InternOp.exec T) p (InternOp.exec T (.addCount t) m).2
      (T.finish t i hash name) m := by
  refine ⟨_, ?_, .turn .refl⟩
  show Working (if T.capacity ≤ m.frameCount then _ else T.writeRecord _ _ _ >>= _)
  by_cases hn : T.capacity ≤ m.frameCount
  · rw [if_pos hn]
    exact ⟨_, _, rfl⟩
  · have hlt : m.frameCount + 1 < T.maxFrames := by
      unfold InternTable.capacity at hn
      omega
    rw [if_neg hn]
    exact (writeRecord_working hlt).bind

/-- One participant dies on the entry of `b`. -/
theorem wedged_zero (hcap : 1 ≤ T.capacity) (ha : T.hash a ≠ 0) (hb : T.hash b ≠ 0)
    (hpos : T.pos (T.hash a) 0 ≠ T.pos (T.hash b) 0) :
    ∃ s, TruthfulRuns T (rescuers a b) (init T (rescuers a b) fun _ => true) s ∧
      Wedged T a b 0 s := by
  let m₁ : InternMem := { InternMem.init fun _ => true with
    hashes := upd (fun _ => 0) (T.pos (T.hash b) 0) (T.hash b)
    claiming := upd (fun _ => claimUnrecorded) (T.pos (T.hash b) 0) 2 }
  let s₁ : InternPool := ⟨m₁, upd (init T (rescuers a b) fun _ => true).prog 1 .abort⟩
  have henter : Pool.Alone (InternOp.exec T) (some <$> T.finish 1 (T.pos (T.hash b) 0) (T.hash b) b)
      m₁ (T.internCore 1 2 0 b) (.init fun _ => true) :=
    T.alone_enter 1 2 0 (m := .init fun _ => true) hcap rfl rfl rfl hb
  have hdies : TruthfulRuns T (rescuers a b) (init T (rescuers a b) fun _ => true) s₁ :=
    alone_dies (fun u => .inl rfl) (fun _ _ => rfl) (Working.bind (Working.bind ⟨_, _, rfl⟩))
      henter.bind
  have hidle : ∀ u, Idle T (rescuers a b) s₁ u := by
    intro u
    by_cases hu : u = 1
    · subst hu
      exact idle_of_end _ _ nofun
    · exact Idle.other (.inl rfl) hu _ _
  have hclaim : m₁.claiming (T.pos (T.hash a) 0) = claimUnrecorded :=
    upd_of_ne (fun _ => claimUnrecorded) 2 hpos
  have hempty : m₁.hashes (T.pos (T.hash a) 0) = 0 := upd_of_ne (fun _ => 0) (T.hash b) hpos
  obtain ⟨m', hrun, hent, hhashes, hclaiming⟩ :=
    T.run_internCore_new (m := m₁) hcap rfl hempty rfl hclaim ha
  have hruns := intern_runs (t := 0) hidle rfl rfl rfl hrun
  refine ⟨_, hdies.trans hruns, ?_, ?_, ?_, hent.frameCount, rfl, ?_, ?_⟩
  · show m'.hashes _ = _
    rw [hhashes, upd_of_ne _ _ hpos.symm]
    exact upd_self (fun _ => 0) _ (T.hash b)
  · show m'.ids _ = _
    rw [hent.ids, upd_of_ne _ _ hpos.symm]
    rfl
  · show m'.claiming _ = _
    rw [hclaiming _ hpos.symm]
    exact upd_self (fun _ => claimUnrecorded) _ 2
  · intro t
    by_cases ht : t = 0
    · subst ht
      exact idle_of_end _ _ nofun
    · exact (hidle t).other ht _ _
  · intro t ht
    show upd (upd _ 1 _) 0 _ t = _
    rw [upd_of_ne _ _ (by omega), upd_of_ne _ _ (by omega)]
    rfl

/-- New liveness answers, while nobody is at work. -/
theorem judge_runs (hidle : ∀ u, Idle T calls s u) (alive : ℕ → Bool) :
    TruthfulRuns T calls s { s with mem := judge alive s.mem } :=
  Runs.refl.step (fun u _ _ _ => hidle u) (show step T s (.env alive) = _ from rfl)

/-- The claimant of the entry is reported dead, and rescuer `k` takes the entry over. -/
theorem wedged_rescue (hw : Wedged T a b k s) :
    ∃ s₁ : InternPool, TruthfulRuns T (rescuers a b) s s₁ ∧ s₁.prog = s.prog ∧
      s₁.mem.alive (1 + k % 2) = true ∧
      Pool.Alone (InternOp.exec T)
        (some <$> T.finish (k + 2) (T.pos (T.hash b) 0) (T.hash b) b)
        { s₁.mem with claiming := upd s.mem.claiming (T.pos (T.hash b) 0) (1 + k % 2) }
        (T.internCore (k + 2) (1 + k % 2) internSpinLimit b) s₁.mem ∧
      s₁.mem.hashes = s.mem.hashes ∧ s₁.mem.ids = s.mem.ids ∧
      s₁.mem.frameCount = s.mem.frameCount := by
  refine ⟨_, judge_runs hw.idle fun me => decide (me ≠ 1 + (k + 1) % 2), rfl, ?_, ?_, rfl, rfl, rfl⟩
  · exact decide_eq_true (by omega)
  · refine T.alone_rescue (Nat.le_refl _) rfl hw.hashed hw.unpublished hw.claimed ?_ ?_ ?_
    · unfold claimUnrecorded
      omega
    · unfold claimAnonymous
      omega
    · exact decide_eq_false fun h => h rfl

/-- **Step lemma.** A rescuer takes the entry over, bumps the counter and dies. -/
theorem wedged_succ (hw : Wedged T a b k s) :
    ∃ s', TruthfulRuns T (rescuers a b) s s' ∧ Wedged T a b (k + 1) s' := by
  obtain ⟨s₁, hruns, hprog, halive, hrescue, hhashes, hids, hcount⟩ := wedged_rescue hw
  obtain ⟨p, hp, hfinish⟩ := finish_working (T := T) (k + 2) (T.pos (T.hash b) 0) (T.hash b) b
    { s₁.mem with claiming := upd s.mem.claiming (T.pos (T.hash b) 0) (1 + k % 2) }
  have hfound : s₁.Found 0 1 := (congrFun hprog 0).trans hw.found
  have hidle : ∀ u, Idle T (rescuers a b) s₁ u := by
    intro u
    unfold Idle
    rw [hprog]
    exact hw.idle u
  have hstart : s₁.prog (k + 2) = (T.internCore (k + 2) (1 + k % 2) internSpinLimit b >>=
      fun r => pure (r.map fun r => r.map some)) := by
    rw [hprog]
    exact hw.waiting _ (Nat.le_refl _)
  have hwork := (hrescue.trans (hfinish.bind (g := fun r => pure (some r)))).bind
    (g := fun r => pure (r.map fun r => r.map some))
  rw [← hstart] at hwork
  have hdies := alone_dies hidle (fun me hme => by cases hme; exact halive) hp.bind.bind hwork
  refine ⟨_, hruns.trans hdies, ?_, ?_, ?_, ?_, ?_, ?_, ?_⟩
  · exact (congrFun hhashes _).trans hw.hashed
  · exact (congrFun hids _).trans hw.unpublished
  · refine (upd_self _ _ _).trans ?_
    omega
  · show (s₁.mem.frameCount + 1) % 2 ^ 32 = (1 + (k + 1)) % 2 ^ 32
    rw [hcount, hw.count, Nat.mod_add_mod, Nat.add_assoc]
  · exact hfound.other (by omega) _ _
  · intro t
    by_cases ht : t = k + 2
    · subst ht
      exact idle_of_end _ _ nofun
    · exact (hidle t).other ht _ _
  · intro t ht
    refine (upd_of_ne s₁.prog .abort (show t ≠ k + 2 by omega)).trans ?_
    rw [hprog]
    exact hw.waiting t (by omega)

/-- A rescuer that meets a counter that has wrapped. -/
theorem wedged_last (hw : Wedged T a b k s) (hcap : 1 ≤ T.capacity) (hk : 1 + k = 2 ^ 32) :
    ∃ s', TruthfulRuns T (rescuers a b) s s' ∧ s'.Found 0 1 ∧ s'.Found (k + 2) 1 := by
  obtain ⟨s₁, hruns, hprog, halive, hrescue, hhashes, hids, hcount⟩ := wedged_rescue hw
  have hzero : s₁.mem.frameCount = 0 := by
    rw [hcount, hw.count, hk, Nat.mod_self]
  have hfound : s₁.Found 0 1 := (congrFun hprog 0).trans hw.found
  have hidle : ∀ u, Idle T (rescuers a b) s₁ u := by
    intro u
    unfold Idle
    rw [hprog]
    exact hw.idle u
  have hstart : s₁.prog (k + 2) = (rescuers a b (k + 2)).prog T (k + 2) := by
    rw [hprog]
    exact hw.waiting _ (Nat.le_refl _)
  have hlt : s₁.mem.frameCount < T.capacity := by omega
  obtain ⟨m', hrun, -⟩ := T.run_finish (t := k + 2) (i := T.pos (T.hash b) 0) (m := { s₁.mem with
      claiming := upd s.mem.claiming (T.pos (T.hash b) 0) (1 + k % 2) })
    hlt ((congrFun hids _).trans hw.unpublished)
  have hcall : (T.internCore (k + 2) (1 + k % 2) internSpinLimit b).run (InternOp.exec T) s₁.mem =
      some (some (.ok 1), m') := by
    rw [hrescue.run_eq, InternTable.run_map hrun]
    show some (some (Except.ok (s₁.mem.frameCount + 1)), m') = _
    rw [hzero]
  have hlast := intern_runs hidle rfl hstart halive hcall
  exact ⟨_, hruns.trans hlast, hfound.other (by omega) _ _, upd_self _ _ _⟩

/-- The last of 2^32 rescuers gives a name the id of another. -/
theorem shares_wrapped (hcap : 1 ≤ T.capacity) (ha : T.hash a ≠ 0) (hb : T.hash b ≠ 0)
    (hpos : T.pos (T.hash a) 0 ≠ T.pos (T.hash b) 0) :
    ∃ s, TruthfulRuns T (rescuers a b) (init T (rescuers a b) fun _ => true) s ∧
      s.Found 0 1 ∧ s.Found (2 ^ 32 + 1) 1 := by
  have hwedged : ∀ k, 1 + k ≤ 2 ^ 32 →
      ∃ s, TruthfulRuns T (rescuers a b) (init T (rescuers a b) fun _ => true) s ∧
        Wedged T a b k s := by
    intro k
    induction k with
    | zero => exact fun _ => wedged_zero hcap ha hb hpos
    | succ k ih =>
      intro hk
      obtain ⟨s, hs, hw⟩ := ih (by omega)
      obtain ⟨s', hs', hw'⟩ := wedged_succ hw
      exact ⟨s', hs.trans hs', hw'⟩
  obtain ⟨k, hk⟩ : ∃ k, 1 + k = 2 ^ 32 := ⟨2 ^ 32 - 1, by omega⟩
  obtain ⟨s, hs, hw⟩ := hwedged k (by omega)
  obtain ⟨s', hs', hfound, hfound'⟩ := wedged_last hw hcap hk
  refine ⟨s', hs.trans hs', hfound, ?_⟩
  have hlast : 2 ^ 32 + 1 = k + 2 := by omega
  rw [hlast]
  exact hfound'

end Wrap

/-- A table of one frame, with a hash that tells names of different lengths apart. -/
def smallTable : InternTable where
  maxFrames := 2
  maxFrames_lt := by decide
  hash := fun name => name.length + 1

/-- A name of 49 bytes. -/
def longName (last : UInt8) : List UInt8 := List.replicate nameBytes 0 ++ [last]

theorem smallTable_pos : smallTable.pos 2 0 ≠ smallTable.pos 3 0 := by
  have hlen : smallTable.len = 4 := by
    simp [InternTable.len, smallTable, nextPow2, nextPow2Loop]
  simp [InternTable.pos, hlen]

/-- A participant interns a name, and another one finds it. -/
theorem intern_safe_pair :
    ∃ s s', Reachable (step smallTable) (init smallTable (pair [7] [7]) fun _ => true) s ∧
      Reachable (step smallTable) s s' ∧ s.Found 0 1 ∧ s'.Found 1 1 ∧
      ∀ r, s'.prog 1 = .ret r → r = some (.ok (some 1)) := by
  obtain ⟨s, s', hs, hs', hw, hfound, hstart, -, hfound'⟩ :=
    shares_truncated (T := smallTable) (a := [7]) (b := [7]) (by decide) (by decide) rfl rfl
  have hs := hs.mono fun _ _ _ => trivial
  have hs' := hs'.mono fun _ _ _ => trivial
  refine ⟨s, s', hs, hs', hfound, hfound', fun r hr => ?_⟩
  have hsafe := intern_safe (T := smallTable) (fun _ => Nat.succ_ne_zero _) hs hs' hw
  exact hsafe.2.2.2.2 0 1 1 r hfound rfl hstart hr

/-- Two different names get one id, with truthful liveness answers: names that differ behind
    byte 48 only, and names of different hashes once the counter has wrapped. -/
theorem names_share_ids :
    (∃ s, TruthfulRuns smallTable (pair (longName 1) (longName 2))
        (init smallTable (pair (longName 1) (longName 2)) fun _ => true) s ∧
      longName 1 ≠ longName 2 ∧ s.mem.wrapped = false ∧ s.Found 0 1 ∧ s.Found 1 1) ∧
    ∃ s, TruthfulRuns smallTable (rescuers [7] [7, 7])
        (init smallTable (rescuers [7] [7, 7]) fun _ => true) s ∧
      s.Found 0 1 ∧ s.Found (2 ^ 32 + 1) 1 := by
  constructor
  · obtain ⟨s, s', hs, hs', hw, -, -, hfound, hfound'⟩ := shares_truncated (T := smallTable)
      (a := longName 1) (b := longName 2) (by decide) (by decide) rfl rfl
    exact ⟨s', hs.trans hs', by decide, hw, hfound, hfound'⟩
  · exact shares_wrapped (by decide) (by decide) (by decide) smallTable_pos

end InternPool

end TfTree
