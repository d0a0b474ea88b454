import TfTree.Frame.Alone

/-!
# The invariant of the frame table

* `Inv`: a nonempty slot is on the probe path of its hash behind slots of other hashes; a
  published id has one slot and a complete record; ids and the returns that are still to
  come are accounted for in the counter.
* `Keeps`: what a thread relies on while the others move.
* `moves_casHash`, `moves_record`, `moves_publish`, `moves_addCount`, `moves_subCount`: the
  accesses that write keep both.
-/

namespace TfTree

open Conc

namespace InternMem

variable {T : InternTable} {m m' : InternMem} {t u i j id hash d : ℕ} {name : List UInt8}

/-! ## The invariant -/

/-- The first `d` slots of the probe of `hash` hold other hashes. -/
def Passed (T : InternTable) (m : InternMem) (hash d : ℕ) : Prop :=
  ∀ d', d' < d → m.hashes (T.pos hash d') ≠ 0 ∧ m.hashes (T.pos hash d') ≠ hash

/-- The invariant of the table. -/
structure Inv (T : InternTable) (m : InternMem) : Prop where
  placed : ∀ i hash, m.hashes i = hash → hash ≠ 0 → ∃ d, i = T.pos hash d ∧ Passed T m hash d
  shown : ∀ i, m.ids i ≠ idUnpublished → m.ids i ≠ idFailed → m.status (m.ids i) = .visible i
  visible : ∀ i id, m.status id = .visible i → m.ids i = id
  recorded : ∀ i id, m.status id = .visible i →
    ∃ name, m.hashes i = T.hash name ∧ m.records id = .forName name (T.hash name)
  range : ∀ id, m.status id ≠ .free → 1 ≤ id ∧ id ≤ T.capacity ∧ id ≤ m.frameCount
  full : m.failing = [] ∨ T.capacity + m.failing.length ≤ m.frameCount
  count_lt : m.frameCount < 2 ^ 32

/-- No `fetch_add` of the counter has wrapped. -/
def Fits (m : InternMem) : Prop := m.wrapped = false

theorem inv_init (alive : ℕ → Bool) : Inv T (init alive) where
  placed := fun _ _ h h0 => absurd h.symm h0
  shown := fun _ h => absurd rfl h
  visible := by
    intro i id h
    cases h
  recorded := by
    intro i id h
    cases h
  range := fun _ h => absurd rfl h
  full := .inl rfl
  count_lt := Nat.two_pow_pos 32

theorem Passed.succ (h : Passed T m hash d) (h0 : m.hashes (T.pos hash d) ≠ 0)
    (hne : m.hashes (T.pos hash d) ≠ hash) : Passed T m hash (d + 1) := by
  intro d' hd'
  by_cases heq : d' = d
  · subst heq
    exact ⟨h0, hne⟩
  · exact h d' (by omega)

/-- A hash is in one slot. -/
theorem Inv.slot_unique (hJ : Inv T m) (h0 : hash ≠ 0) (hi : m.hashes i = hash)
    (hj : m.hashes j = hash) : i = j := by
  obtain ⟨d, hd, hpassed⟩ := hJ.placed i hash hi h0
  obtain ⟨e, he, hpassed'⟩ := hJ.placed j hash hj h0
  rcases Nat.lt_trichotomy d e with hlt | heq | hlt
  · exact absurd (by rw [← hd, hi]) (hpassed' d hlt).2
  · rw [hd, he, heq]
  · exact absurd (by rw [← he, hj]) (hpassed e hlt).2

/-- The probe reaches the slot of a hash within one turn of the table. -/
theorem Inv.placed_lt (hJ : Inv T m) (h0 : hash ≠ 0) (hi : m.hashes i = hash) :
    ∃ d, d < T.len ∧ i = T.pos hash d ∧ Passed T m hash d := by
  obtain ⟨d, hd, hpassed⟩ := hJ.placed i hash hi h0
  refine ⟨d, Nat.lt_of_not_le fun hle => ?_, hd, hpassed⟩
  have hlen := T.len_pos
  have hback := (hpassed (d - T.len) (by omega)).2
  rw [T.pos_sub hle, ← hd] at hback
  exact hback hi

/-! ## What a thread relies on -/

/-- Nothing published is taken back. -/
structure Stays (m m' : InternMem) : Prop where
  hashes : ∀ i, m.hashes i ≠ 0 → m'.hashes i = m.hashes i
  ids : ∀ i, m.ids i ≠ idUnpublished → m'.ids i = m.ids i
  visible : ∀ id i, m.status id = .visible i →
    m'.status id = .visible i ∧ m'.records id = m.records id

/-- What the others keep for thread `t`: the ids it owns, and its turn to return one. -/
structure Keeps (t : ℕ) (m m' : InternMem) : Prop extends Stays m m' where
  owned : ∀ id, m.status id = .owned t → m'.status id = .owned t ∧ m'.records id = m.records id
  failing : t ∈ m.failing → t ∈ m'.failing
  fits : Fits m' → Fits m

theorem Stays.refl (m : InternMem) : Stays m m :=
  ⟨fun _ _ => rfl, fun _ _ => rfl, fun _ _ h => ⟨h, rfl⟩⟩

theorem Stays.trans {m'' : InternMem} (h : Stays m m') (h' : Stays m' m'') : Stays m m'' where
  hashes := by
    intro i hi
    have hi' := h.hashes i hi
    rw [h'.hashes i (by rw [hi']; exact hi), hi']
  ids := by
    intro i hi
    have hi' := h.ids i hi
    rw [h'.ids i (by rw [hi']; exact hi), hi']
  visible := by
    intro id i hid
    obtain ⟨hs, hr⟩ := h.visible id i hid
    obtain ⟨hs', hr'⟩ := h'.visible id i hs
    exact ⟨hs', hr'.trans hr⟩

theorem Keeps.refl (t : ℕ) (m : InternMem) : Keeps t m m where
  toStays := .refl m
  owned := fun _ h => ⟨h, rfl⟩
  failing := id
  fits := id

theorem Keeps.trans {m'' : InternMem} (h : Keeps t m m') (h' : Keeps t m' m'') :
    Keeps t m m'' where
  toStays := h.toStays.trans h'.toStays
  owned := by
    intro id hid
    obtain ⟨hs, hr⟩ := h.owned id hid
    obtain ⟨hs', hr'⟩ := h'.owned id hs
    exact ⟨hs', hr'.trans hr⟩
  failing := fun ht => h'.failing (h.failing ht)
  fits := fun hf => h.fits (h'.fits hf)

/-- Slot `i` shows the id of a frame. -/
structure Shows (T : InternTable) (m : InternMem) (i id : ℕ) : Prop where
  visible : m.status id = .visible i
  lt : id < T.maxFrames
  ne_failed : id ≠ idFailed

theorem Inv.shows (hJ : Inv T m) (h : m.status id = .visible i) : Shows T m i id where
  visible := h
  lt := by
    have := hJ.range id (by rw [h]; nofun)
    unfold InternTable.capacity at this
    omega
  ne_failed := by
    have := hJ.range id (by rw [h]; nofun)
    have := T.capacity_lt
    omega

/-- A value read from `ids` is a sentinel or a published id. -/
theorem Inv.shows_of_ids (hJ : Inv T m) (h : m.ids i = id) (h0 : id ≠ idUnpublished) :
    id = idFailed ∨ Shows T m i id := by
  subst h
  by_cases hf : m.ids i = idFailed
  · exact .inl hf
  · exact .inr (hJ.shows (hJ.shown i h0 hf))

/-- `id` is published for a name that the record of `id` matches. -/
def Published (T : InternTable) (m : InternMem) (name : List UInt8) (id : ℕ) : Prop :=
  ∃ i, Shows T m i id ∧ m.hashes i = T.hash name ∧ (m.records id).nameMatches name = true

theorem Shows.stays (h : Shows T m i id) (hS : Stays m m') : Shows T m' i id where
  visible := (hS.visible id i h.visible).1
  lt := h.lt
  ne_failed := h.ne_failed

theorem Passed.stays (h : Passed T m hash d) (hS : Stays m m') : Passed T m' hash d := by
  intro d' hd'
  obtain ⟨h0, hne⟩ := h d' hd'
  rw [hS.hashes _ h0]
  exact ⟨h0, hne⟩

theorem Stays.hash_eq (hS : Stays m m') (h0 : hash ≠ 0) (h : m.hashes i = hash) :
    m'.hashes i = hash := by
  rw [hS.hashes i (by rw [h]; exact h0), h]

theorem Published.stays (hh : ∀ name, T.hash name ≠ 0) (h : Published T m name id)
    (hS : Stays m m') : Published T m' name id := by
  obtain ⟨i, hs, hi, hname⟩ := h
  refine ⟨i, hs.stays hS, hS.hash_eq (hh name) hi, ?_⟩
  rw [(hS.visible id i hs.visible).2]
  exact hname

/-- A name is published under one id. -/
theorem Published.unique (hh : ∀ name, T.hash name ≠ 0) (hJ : Inv T m)
    (h : Published T m name id) {id' : ℕ} (h' : Published T m name id') : id = id' := by
  obtain ⟨i, hs, hi, -⟩ := h
  obtain ⟨j, hs', hj, -⟩ := h'
  obtain rfl := hJ.slot_unique (hh name) hi hj
  rw [← hJ.visible i id hs.visible, ← hJ.visible i id' hs'.visible]

/-- An id is published for names that agree in hash and in what is stored. -/
theorem Published.agree (hJ : Inv T m) (h : Published T m name id) {name' : List UInt8}
    (h' : Published T m name' id) :
    T.hash name = T.hash name' ∧ FrameRecord.stored name = FrameRecord.stored name' := by
  obtain ⟨i, hs, hi, hname⟩ := h
  obtain ⟨j, hs', hj, hname'⟩ := h'
  have hij : i = j := IdStatus.visible.inj (hs.visible.symm.trans hs'.visible)
  subst hij
  obtain ⟨n, -, hrec⟩ := hJ.recorded i id hs.visible
  rw [hrec, FrameRecord.forName_matches] at hname hname'
  exact ⟨hi.symm.trans hj, hname.trans hname'.symm⟩

theorem Published.range (hJ : Inv T m) (h : Published T m name id) :
    1 ≤ id ∧ id ≤ T.capacity := by
  obtain ⟨i, hs, -, -⟩ := h
  have := hJ.range id (by rw [hs.visible]; nofun)
  exact ⟨this.1, this.2.1⟩

/-! ## What the accesses do -/

/-- A thread keeps the invariant and what the others rely on. -/
def Moves (T : InternTable) (t : ℕ) (m m' : InternMem) : Prop :=
  Inv T m' ∧ ∀ u, u ≠ t → Keeps u m m'

theorem Moves.refl (hJ : Inv T m) : Moves T t m m := ⟨hJ, fun u _ => .refl u m⟩

theorem Moves.stays (h : Moves T t m m') : Stays m m' := (h.2 (t + 1) (by omega)).toStays

/-- The claims and the liveness answers are nobody's business. -/
theorem moves_claiming (hJ : Inv T m) (claiming : ℕ → ℕ) :
    Moves T t m { m with claiming := claiming } :=
  ⟨⟨hJ.placed, hJ.shown, hJ.visible, hJ.recorded, hJ.range, hJ.full, hJ.count_lt⟩,
    fun _ _ => ⟨⟨fun _ _ => rfl, fun _ _ => rfl, fun _ _ h => ⟨h, rfl⟩⟩, fun _ h => ⟨h, rfl⟩,
      fun h => h, fun h => h⟩⟩

/-- A hash enters the first empty slot of its probe. -/
theorem moves_casHash (hh : ∀ name, T.hash name ≠ 0) (hJ : Inv T m) (hpassed : Passed T m hash d) :
    Moves T t m { m with hashes := InternOp.cas m.hashes (T.pos hash d) 0 hash } := by
  by_cases hempty : m.hashes (T.pos hash d) = 0
  · rw [InternOp.cas, if_pos hempty]
    have hold : ∀ i, m.hashes i ≠ 0 → upd m.hashes (T.pos hash d) hash i = m.hashes i := by
      intro i hi
      refine upd_of_ne _ _ ?_
      rintro rfl
      exact hi hempty
    have hkeep : ∀ h e, Passed T m h e →
        Passed T { m with hashes := upd m.hashes (T.pos hash d) hash } h e := by
      intro h e hp d' hd'
      obtain ⟨hne0, hne⟩ := hp d' hd'
      show upd m.hashes _ hash _ ≠ 0 ∧ upd m.hashes _ hash _ ≠ h
      rw [hold _ hne0]
      exact ⟨hne0, hne⟩
    refine ⟨⟨?_, hJ.shown, hJ.visible, ?_, hJ.range, hJ.full, hJ.count_lt⟩, fun u _ =>
      ⟨⟨hold, fun _ _ => rfl, fun _ _ h => ⟨h, rfl⟩⟩, fun _ h => ⟨h, rfl⟩, fun h => h, fun h => h⟩⟩
    · intro i h hi h0
      replace hi : upd m.hashes (T.pos hash d) hash i = h := hi
      by_cases hid : i = T.pos hash d
      · subst hid
        rw [upd_self] at hi
        subst hi
        exact ⟨d, rfl, hkeep _ _ hpassed⟩
      · rw [upd_of_ne _ _ hid] at hi
        obtain ⟨e, he, hp⟩ := hJ.placed i h hi h0
        exact ⟨e, he, hkeep _ _ hp⟩
    · intro i id hid
      obtain ⟨name, hname, hrec⟩ := hJ.recorded i id hid
      exact ⟨name, (hold i (by rw [hname]; exact hh name)).trans hname, hrec⟩
  · rw [InternOp.cas, if_neg hempty]
    exact .refl hJ

/-- A thread writes the record of an id that it owns. -/
theorem moves_record (hJ : Inv T m) (hid : m.status id = .owned t) (r : FrameRecord) :
    Moves T t m { m with records := upd m.records id r } := by
  have hne : ∀ id', m.status id' ≠ .owned t → upd m.records id r id' = m.records id' := by
    intro id' h
    refine upd_of_ne _ _ ?_
    rintro rfl
    exact h hid
  refine ⟨⟨hJ.placed, hJ.shown, hJ.visible, ?_, hJ.range, hJ.full, hJ.count_lt⟩, fun u hu =>
    ⟨⟨fun _ _ => rfl, fun _ _ => rfl, ?_⟩, ?_, fun h => h, fun h => h⟩⟩
  · intro i id' h
    obtain ⟨name, hname, hrec⟩ := hJ.recorded i id' h
    exact ⟨name, hname, (hne id' (by rw [h]; nofun)).trans hrec⟩
  · intro id' i h
    exact ⟨h, hne id' (by rw [h]; nofun)⟩
  · intro id' h
    refine ⟨h, hne id' ?_⟩
    rw [h]
    exact fun heq => hu (IdStatus.owned.inj heq)

/-- A thread publishes the id that it owns, behind a complete record. -/
theorem moves_publish (hJ : Inv T m) (hid : m.status id = .owned t)
    (hi : m.hashes i = T.hash name) (hrec : m.records id = .forName name (T.hash name)) :
    Moves T t m { m with
      ids := InternOp.cas m.ids i idUnpublished id, status := InternOp.publishStatus m i id } := by
  have hrange := hJ.range id (by simp [hid])
  have hcap := T.capacity_lt
  have hfail : id ≠ idFailed := by omega
  by_cases hempty : m.ids i = idUnpublished
  · rw [InternOp.cas, if_pos hempty, InternOp.publishStatus, if_pos ⟨hempty, hfail⟩]
    have hother : ∀ id', m.status id' ≠ .owned t →
        upd m.status id (.visible i) id' = m.status id' := by
      intro id' h
      refine upd_of_ne _ _ ?_
      rintro rfl
      exact h hid
    have hold : ∀ j, m.ids j ≠ idUnpublished → upd m.ids i id j = m.ids j := by
      intro j hj
      refine upd_of_ne _ _ ?_
      rintro rfl
      exact hj hempty
    refine ⟨⟨hJ.placed, ?_, ?_, ?_, ?_, hJ.full, hJ.count_lt⟩, fun u hu =>
      ⟨⟨fun _ _ => rfl, hold, ?_⟩, ?_, fun h => h, fun h => h⟩⟩
    · intro j hj hjf
      replace hj : upd m.ids i id j ≠ idUnpublished := hj
      replace hjf : upd m.ids i id j ≠ idFailed := hjf
      show upd m.status id (.visible i) (upd m.ids i id j) = .visible j
      by_cases hji : j = i
      · subst hji
        rw [upd_self, upd_self]
      · rw [upd_of_ne _ _ hji] at hj hjf ⊢
        have hvis := hJ.shown j hj hjf
        rw [hother _ (by simp [hvis]), hvis]
    · intro j id' h
      replace h : upd m.status id (.visible i) id' = .visible j := h
      show upd m.ids i id j = id'
      by_cases heq : id' = id
      · subst heq
        rw [upd_self] at h
        cases h
        rw [upd_self]
      · rw [upd_of_ne _ _ heq] at h
        have hids := hJ.visible j id' h
        have := hJ.range id' (by simp [h])
        rw [hold j (by rw [hids]; unfold idUnpublished; omega), hids]
    · intro j id' h
      replace h : upd m.status id (.visible i) id' = .visible j := h
      by_cases heq : id' = id
      · subst heq
        rw [upd_self] at h
        cases h
        exact ⟨name, hi, hrec⟩
      · rw [upd_of_ne _ _ heq] at h
        exact hJ.recorded j id' h
    · intro id' h
      replace h : upd m.status id (.visible i) id' ≠ .free := h
      by_cases heq : id' = id
      · subst heq
        exact hrange
      · rw [upd_of_ne _ _ heq] at h
        exact hJ.range id' h
    · intro id' j h
      exact ⟨(hother id' (by simp [h])).trans h, rfl⟩
    · intro id' h
      refine ⟨(hother id' ?_).trans h, rfl⟩
      rw [h]
      exact fun heq => hu (IdStatus.owned.inj heq)
  · rw [InternOp.cas, if_neg hempty, InternOp.publishStatus, if_neg fun h => hempty h.1]
    exact .refl hJ

/-- A slot that stays without an id. -/
theorem moves_fail (hJ : Inv T m) (i : ℕ) :
    Moves T t m { m with
      ids := InternOp.cas m.ids i idUnpublished idFailed
      status := InternOp.publishStatus m i idFailed } := by
  rw [InternOp.publishStatus, if_neg fun h => h.2 rfl]
  by_cases hempty : m.ids i = idUnpublished
  · rw [InternOp.cas, if_pos hempty]
    have hold : ∀ j, m.ids j ≠ idUnpublished → upd m.ids i idFailed j = m.ids j := by
      intro j hj
      refine upd_of_ne _ _ ?_
      rintro rfl
      exact hj hempty
    refine ⟨⟨hJ.placed, ?_, ?_, hJ.recorded, hJ.range, hJ.full, hJ.count_lt⟩, fun u hu =>
      ⟨⟨fun _ _ => rfl, hold, fun _ _ h => ⟨h, rfl⟩⟩, fun _ h => ⟨h, rfl⟩, fun h => h, fun h => h⟩⟩
    · intro j hj hjf
      replace hj : upd m.ids i idFailed j ≠ idUnpublished := hj
      replace hjf : upd m.ids i idFailed j ≠ idFailed := hjf
      show m.status (upd m.ids i idFailed j) = .visible j
      by_cases hji : j = i
      · subst hji
        exact absurd (upd_self _ _ _) hjf
      · rw [upd_of_ne _ _ hji] at hj hjf ⊢
        exact hJ.shown j hj hjf
    · intro j id' h
      replace h : m.status id' = .visible j := h
      have hids := hJ.visible j id' h
      have := hJ.range id' (by simp [h])
      exact (hold j (by rw [hids]; unfold idUnpublished; omega)).trans hids
  · rw [InternOp.cas, if_neg hempty]
    exact .refl hJ

theorem fits_exec (o : InternOp) (h : Fits (o.exec T m).2) : Fits m := by
  unfold Fits at h ⊢
  cases o with
  | addCount t =>
    simp only [InternOp.exec, Bool.or_eq_false_iff] at h
    exact h.1
  | _ =>
    simp only [InternOp.exec] at h
    exact h

/-- `fetch_add` without a wrap: a new id for the thread, or its turn to return one. -/
theorem moves_addCount (hJ : Inv T m)
    (hfit : Fits (InternOp.exec T (.addCount t) m).2) :
    Moves T t m (InternOp.exec T (.addCount t) m).2 ∧
      if m.frameCount < T.capacity then
        (InternOp.exec T (.addCount t) m).2.status (m.frameCount + 1) = .owned t
      else t ∈ (InternOp.exec T (.addCount t) m).2.failing := by
  have hfit' : (m.wrapped || decide (m.frameCount + 1 = 2 ^ 32)) = false := hfit
  rw [Bool.or_eq_false_iff, decide_eq_false_iff_not] at hfit'
  have hlt := hJ.count_lt
  have hmod : (m.frameCount + 1) % 2 ^ 32 = m.frameCount + 1 := Nat.mod_eq_of_lt (by omega)
  have hfull := hJ.full
  simp only [InternOp.exec, hmod]
  by_cases hn : m.frameCount < T.capacity
  · simp only [if_pos hn]
    have hnone : m.failing = [] := by
      rcases hfull with h | h
      · exact h
      · omega
    have hfree : m.status (m.frameCount + 1) = .free := by
      by_contra h
      have := hJ.range _ h
      omega
    have hother : ∀ id', m.status id' ≠ .free →
        upd m.status (m.frameCount + 1) (.owned t) id' = m.status id' := by
      intro id' h
      refine upd_of_ne _ _ ?_
      rintro rfl
      exact h hfree
    have hvisible : ∀ id' j, upd m.status (m.frameCount + 1) (.owned t) id' = .visible j →
        m.status id' = .visible j := by
      intro id' j h
      by_cases heq : id' = m.frameCount + 1
      · subst heq
        rw [upd_self] at h
        cases h
      · rwa [upd_of_ne _ _ heq] at h
    refine ⟨⟨⟨hJ.placed, ?_, ?_, ?_, ?_, .inl hnone, ?_⟩, fun u hu =>
      ⟨⟨fun _ _ => rfl, fun _ _ => rfl, ?_⟩, ?_, fun h => h, fun _ => hfit'.1⟩⟩, upd_self _ _ _⟩
    · intro j hj hjf
      have hvis := hJ.shown j hj hjf
      exact (hother _ (by simp [hvis])).trans hvis
    · intro j id' h
      exact hJ.visible j id' (hvisible id' j h)
    · intro j id' h
      exact hJ.recorded j id' (hvisible id' j h)
    · intro id' h
      by_cases heq : id' = m.frameCount + 1
      · subst heq
        show 1 ≤ m.frameCount + 1 ∧ m.frameCount + 1 ≤ T.capacity ∧
          m.frameCount + 1 ≤ m.frameCount + 1
        omega
      · have hr := hJ.range id' (by rw [← upd_of_ne m.status (.owned t) heq]; exact h)
        show 1 ≤ id' ∧ id' ≤ T.capacity ∧ id' ≤ m.frameCount + 1
        omega
    · show m.frameCount + 1 < 2 ^ 32
      omega
    · intro id' j h
      exact ⟨(hother id' (by simp [h])).trans h, rfl⟩
    · intro id' h
      exact ⟨(hother id' (by simp [h])).trans h, rfl⟩
  · simp only [if_neg hn]
    refine ⟨⟨⟨hJ.placed, hJ.shown, hJ.visible, hJ.recorded, ?_, .inr ?_, ?_⟩, fun u hu =>
      ⟨⟨fun _ _ => rfl, fun _ _ => rfl, fun _ _ h => ⟨h, rfl⟩⟩, fun _ h => ⟨h, rfl⟩,
        List.mem_cons_of_mem _, fun _ => hfit'.1⟩⟩, List.mem_cons_self⟩
    · intro id' h
      have := hJ.range id' h
      show 1 ≤ id' ∧ id' ≤ T.capacity ∧ id' ≤ m.frameCount + 1
      omega
    · show T.capacity + (m.failing.length + 1) ≤ m.frameCount + 1
      rcases hfull with h | h
      · rw [h, List.length_nil]
        omega
      · omega
    · show m.frameCount + 1 < 2 ^ 32
      omega

/-- `fetch_sub` of a thread that has one to return. -/
theorem moves_subCount (hJ : Inv T m) (ht : t ∈ m.failing) :
    Moves T t m (InternOp.exec T (.subCount t) m).2 := by
  have hlen := List.length_pos_of_mem ht
  have herase := List.length_erase_of_mem ht
  have hlt := hJ.count_lt
  have hfull : T.capacity + m.failing.length ≤ m.frameCount := by
    rcases hJ.full with h | h
    · rw [h] at ht
      cases ht
    · exact h
  have hne : m.frameCount ≠ 0 := by omega
  simp only [InternOp.exec, if_neg hne]
  refine ⟨⟨hJ.placed, hJ.shown, hJ.visible, hJ.recorded, ?_, .inr ?_, ?_⟩, fun u hu =>
    ⟨⟨fun _ _ => rfl, fun _ _ => rfl, fun _ _ h => ⟨h, rfl⟩⟩, fun _ h => ⟨h, rfl⟩,
      fun h => (List.mem_erase_of_ne hu).mpr h, fun h => h⟩⟩
  · intro id' h
    have := hJ.range id' h
    show 1 ≤ id' ∧ id' ≤ T.capacity ∧ id' ≤ m.frameCount - 1
    omega
  · show T.capacity + (m.failing.erase t).length ≤ m.frameCount - 1
    omega
  · show m.frameCount - 1 < 2 ^ 32
    omega

end InternMem

end TfTree
