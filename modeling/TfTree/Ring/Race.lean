import TfTree.Ring.Writer

/-!
# A reader racing its writer

One writer pushes while one reader samples, their atomic accesses interleaved in
any order. The reader learns about the index `i` either a published fact or that
the ring has lapped it (`Seen`), and the last `head` load rules the second out for
every index it used.

Results:
* `Seen.of_read`: what a load of a stamp or a payload word tells.
* `readWith_race`: a reader that returns a value has seen published samples only.
* `reads_are_published`: the same of the complete programs, for every interleaving.
-/

namespace TfTree

open Conc

variable {F : Type}

/-! ## The value of a read -/

section Value

variable [Kernels F] {B : Type}

/-- `policy` extends the sample of index `h - 1`, the newest below `h`, to `v`. -/
def SampleRing.Extended (r : SampleRing F) (pub : List (ℤ × Iso3 F)) (exact' : Iso3 F → B) (t : ℤ)
    (h : ℕ) (newest : ℤ × Iso3 F) : ExtrapPolicy → B → Prop
  | .error, _ => False
  | .hold, v => v = exact' newest.2
  | .constantTwist, v =>
    if min h r.retained = 1 then v = exact' newest.2
    else ∃ prev, pub[h - 2]? = some prev ∧
      v = exact' (SampleRing.extendTwist prev.1 newest.1 t prev.2 newest.2).1

/-- `v` is a read at `t` of the published samples below `h`: a sample at `t`, the
    interpolation of two consecutive ones around `t`, or the extension of the newest. -/
def SampleRing.Sampled (r : SampleRing F) (pub : List (ℤ × Iso3 F)) (exact' : Iso3 F → B)
    (between : Iso3 F → Iso3 F → F → B) (t : ℤ) (policy : ExtrapPolicy) (h : ℕ) (v : B) : Prop :=
  ∃ newest, pub[h - 1]? = some newest ∧
    (t ≤ newest.1 →
      (∃ i s, i < h ∧ pub[i]? = some s ∧ s.1 = t ∧ v = exact' s.2) ∨
      ∃ i s s', i + 1 < h ∧ pub[i]? = some s ∧ pub[i + 1]? = some s' ∧ s.1 ≤ t ∧ t < s'.1 ∧
        v = between s.2 s'.2 ((spanNs s.1 t : F) / (spanNs s.1 s'.1 : F))) ∧
    (newest.1 < t → r.Extended pub exact' t h newest policy v)

end Value

/-! ## What a racing reader knows -/

/-- The invariant of a reader that loaded `h` from `head`. -/
structure SampleRing.Reading (r : SampleRing F) (h : ℕ) (m : RingArena F) : Prop where
  ok : r.Ok m
  le : h ≤ (m r.edge).head

/-- The sample of index `i` satisfies `P`, unless the ring has lapped it; nothing is
    known of an index that was not published when `head` was loaded. -/
def SampleRing.Seen (r : SampleRing F) (h i : ℕ) (P : ℤ × Iso3 F → Prop) (m : RingArena F) :
    Prop :=
  r.Reading h m ∧ (i < h →
    i + r.capacity ≤ (m r.edge).head ∨ ∃ s, (m r.edge).published[i]? = some s ∧ P s)

section Seen

variable {r : SampleRing F} {m m' : RingArena F} {h i : ℕ} {P Q : ℤ × Iso3 F → Prop}

theorem SampleRing.Evolves.head_le (he : r.Evolves m m') (hok : r.Ok m) :
    (m r.edge).head ≤ (m' r.edge).head := by
  obtain ⟨hok', hp⟩ := he hok
  rw [hok.head, hok'.head]
  exact hp.length_le

theorem SampleRing.Reading.evolves (hr : r.Reading h m) (he : r.Evolves m m') :
    r.Reading h m' :=
  ⟨(he hr.ok).1, hr.le.trans (he.head_le hr.ok)⟩

theorem SampleRing.Seen.evolves (hs : r.Seen h i P m) (he : r.Evolves m m') :
    r.Seen h i P m' := by
  obtain ⟨hr, hs⟩ := hs
  refine ⟨hr.evolves he, fun hi => ?_⟩
  rcases hs hi with hlap | ⟨s, hget, hP⟩
  · exact .inl (hlap.trans (he.head_le hr.ok))
  · obtain ⟨hlt, rfl⟩ := List.getElem?_eq_some_iff.mp hget
    exact .inr ⟨_, List.prefix_iff_getElem?.mp (he hr.ok).2 i hlt, hP⟩

theorem SampleRing.Seen.mono (hs : r.Seen h i P m) (hPQ : ∀ s, P s → Q s) : r.Seen h i Q m :=
  ⟨hs.1, fun hi => (hs.2 hi).imp_right fun ⟨s, hget, hP⟩ => ⟨s, hget, hPQ s hP⟩⟩

theorem SampleRing.Seen.and (hP : r.Seen h i P m) (hQ : r.Seen h i Q m) :
    r.Seen h i (fun s => P s ∧ Q s) m := by
  refine ⟨hP.1, fun hi => ?_⟩
  rcases hP.2 hi with hlap | ⟨s, hget, hs⟩
  · exact .inl hlap
  · rcases hQ.2 hi with hlap | ⟨s', hget', hs'⟩
    · exact .inl hlap
    · obtain rfl : s = s' := Option.some_inj.mp (hget.symm.trans hget')
      exact .inr ⟨s, hget, hs, hs'⟩

/-- Until the ring laps it, the slot of a published index holds its sample. -/
theorem SampleRing.Seen.of_read (hr : r.Reading h m) : r.Seen h i (r.Holds m i) m := by
  refine ⟨hr, fun hi => ?_⟩
  have hlt : i < (m r.edge).published.length := by
    have hle := hr.le
    rw [hr.ok.head] at hle
    omega
  rcases Nat.lt_or_ge (m r.edge).head (i + r.capacity) with hin | hlap
  · have hget := List.getElem?_eq_getElem hlt
    exact .inr ⟨_, hget, hr.ok.stored i _ hget hin⟩
  · exact .inl hlap

/-- An index the last `head` load leaves inside the window was not lapped. -/
theorem SampleRing.Seen.resolve (hs : r.Seen h i P m) (hi : i < h)
    (hin : (m r.edge).head < i + r.capacity) :
    ∃ s, (m r.edge).published[i]? = some s ∧ P s := by
  rcases hs.2 hi with hlap | hs
  · omega
  · exact hs

/-- The searches of `sample.rs` see published stamps, or are lapped. -/
theorem probe_seen (r : SampleRing F) (t : ℤ) (h lo hi : ℕ) :
    Probe r r.Evolves t lo hi (r.Reading h) (fun i => r.Seen h i (·.1 ≤ t))
      (fun i => r.Seen h i (t < ·.1)) where
  inv := fun _ _ hs => hs.1
  stable_le := fun _ _ _ hs he => hs.evolves he
  stable_gt := fun _ _ _ hs he => hs.evolves he
  le := fun i m hr _ _ hle => (SampleRing.Seen.of_read hr).mono fun s hs => by
    rw [← hs.stamp]
    exact hle
  gt := fun i m hr _ _ hlt => (SampleRing.Seen.of_read hr).mono fun s hs => by
    rw [← hs.stamp]
    exact hlt

/-! ## The loads of a racing reader -/

theorem stampAt_race {Q : ℤ → RingArena F → Prop} (hr : r.Reading h m)
    (hQ : ∀ ti m', r.Evolves m m' → r.Seen h i (·.1 = ti) m' → Q ti m') :
    RingProg.wpRead r.Evolves (r.stampAt i) Q m := by
  refine r.wpRead_stampAt.mpr fun m' he => hQ _ m' he ?_
  exact (SampleRing.Seen.of_read (hr.evolves he)).mono fun s hs => hs.stamp.symm

theorem loadWords_race (is : List (Fin 7)) {bits : Fin 7 → F}
    (hs : r.Seen h i (fun s => ∀ j, j ∉ is → bits j = s.2.toBits j) m) :
    RingProg.wpRead r.Evolves (r.loadWords (r.slot i) is bits)
      (fun bits m' => r.Evolves m m' ∧ r.Seen h i (fun s => bits = s.2.toBits) m') m := by
  induction is generalizing bits m with
  | nil => exact ⟨.refl r m, hs.mono fun s h => funext fun j => h j (by simp)⟩
  | cons j is ih =>
    refine Prog.wp_seq (r.wpRead_loadData.mpr fun m' he => ?_)
    have hs' := (hs.evolves he).and (SampleRing.Seen.of_read (hs.1.evolves he))
    refine Prog.wp_mono (fun b m'' hb => ⟨he.trans hb.1, hb.2⟩) (ih (hs'.mono ?_))
    rintro s ⟨hprev, hholds⟩ k hk
    rw [upd_apply]
    split_ifs with hkj
    · rw [hkj, hholds.data]
    · exact hprev k (by simp [hkj, hk])

theorem readSlot_race [Zero F] (hr : r.Reading h m) {Q : Iso3 F → RingArena F → Prop}
    (hQ : ∀ p m', r.Evolves m m' → r.Seen h i (·.2 = p) m' → Q p m') :
    RingProg.wpRead r.Evolves (r.readSlot (r.slot i)).run (Prog.onOk Q) m := by
  change RingProg.wpRead r.Evolves (r.readSlotLoop (r.slot i) SampleRing.seqRetryLimit) _ m
  generalize SampleRing.seqRetryLimit = n
  induction n generalizing m with
  | zero => trivial
  | succ n ih =>
    have hretry : ∀ m', r.Evolves m m' →
        RingProg.wpRead r.Evolves (r.readSlotLoop (r.slot i) n) (Prog.onOk Q) m' :=
      fun m' he => ih (hr.evolves he) fun p m'' he' => hQ p m'' (he.trans he')
    rw [SampleRing.readSlotLoop]
    refine Prog.wp_seq (r.wpRead_loadSeq.mpr fun m1 he1 => ?_)
    split_ifs with hodd
    · exact hretry m1 he1
    · have hs : r.Seen h i (fun s => ∀ j, j ∉ List.finRange 7 → (0 : F) = s.2.toBits j) m1 :=
        (SampleRing.Seen.of_read (hr.evolves he1)).mono fun s _ j hj => absurd (by simp) hj
      refine Prog.wp_seq (Prog.wp_mono ?_ (loadWords_race _ hs))
      rintro bits m2 ⟨he2, hbits⟩
      refine Prog.wp_seq (r.wpRead_loadSeq.mpr fun m3 he3 => ?_)
      have he := (he1.trans he2).trans he3
      split_ifs
      · refine hQ _ m3 he ((hbits.evolves he3).mono fun s hs => ?_)
        rw [hs, Iso3.fromBits_toBits]
      · exact hretry m3 he

theorem revalidated_race {α : Type} {v : α} {Q : α → RingArena F → Prop} (hc : 2 ≤ r.capacity)
    (hQ : ∀ m', r.Evolves m m' → (m' r.edge).head < i + r.capacity → Q v m') :
    RingProg.wpRead r.Evolves (r.revalidated i v).run (Prog.onOk Q) m := by
  refine Prog.wp_bindE (Prog.wp_liftE (r.wpRead_loadHead.mpr fun m' he => ?_))
  refine Prog.wp_bindE (Prog.wp_liftE (SampleRing.wpRead_u64Sub fun hle => ?_))
  have hret := SampleRing.retained_of_two_le hc
  split_ifs with hlap
  · trivial
  · exact hQ m' he (by omega)

end Seen

/-! ## The readers in a race -/

section Readers

variable [Kernels F] {B : Type} {r : SampleRing F} {m : RingArena F} {h i : ℕ} {t : ℤ}
  {exact' : Iso3 F → B} {between : Iso3 F → Iso3 F → F → B}

/-- The first half of `Sampled`, at the index `i`. -/
def SampleRing.SampledAt (r : SampleRing F) (h i : ℕ) (t : ℤ) (exact' : Iso3 F → B)
    (between : Iso3 F → Iso3 F → F → B) (v : B) (m : RingArena F) : Prop :=
  (∃ s, (m r.edge).published[i]? = some s ∧ s.1 = t ∧ v = exact' s.2) ∨
    ∃ s s', i + 1 < h ∧ (m r.edge).published[i]? = some s ∧
      (m r.edge).published[i + 1]? = some s' ∧ s.1 ≤ t ∧ t < s'.1 ∧
      v = between s.2 s'.2 ((spanNs s.1 t : F) / (spanNs s.1 s'.1 : F))

/-- Reading the index a search ended at. -/
theorem readBracket_race (hc : 2 ≤ r.capacity) (hi : i < h) (ha : r.Seen h i (·.1 ≤ t) m)
    (hb : (i + 1 < h ∧ r.Seen h (i + 1) (t < ·.1) m) ∨ r.Seen h i (t < ·.1) m) :
    RingProg.wpRead r.Evolves (r.readBracket exact' between i t).run (Prog.onOk fun v m' =>
      r.Evolves m m' ∧ (m' r.edge).head < i + r.capacity ∧
      r.SampledAt h i t exact' between v m') m := by
  unfold SampleRing.readBracket
  refine Prog.wp_bindE (Prog.wp_liftE (stampAt_race ha.1 fun ti m1 he1 hti => ?_))
  split_ifs with heq
  · refine Prog.wp_bindE (readSlot_race hti.1 fun p m2 he2 hp => ?_)
    refine revalidated_race hc fun m3 he3 hin => ?_
    obtain ⟨s, hget, hs1, hs2⟩ := (((hti.evolves he2).and hp).evolves he3).resolve hi hin
    exact ⟨(he1.trans he2).trans he3, hin, .inl ⟨s, hget, hs1.trans heq, by rw [hs2]⟩⟩
  · refine Prog.wp_bindE (Prog.wp_liftE (stampAt_race hti.1 fun tj m2 he2 htj => ?_))
    refine Prog.wp_bindE (readSlot_race htj.1 fun a m3 he3 hpa => ?_)
    refine Prog.wp_bindE (readSlot_race hpa.1 fun b m4 he4 hpb => ?_)
    refine revalidated_race hc fun m5 he5 hin => ?_
    have he25 := (he3.trans he4).trans he5
    have he15 := he2.trans he25
    have hlow := (ha.evolves (he1.trans he15)).and
      ((hti.evolves he15).and (hpa.evolves (he4.trans he5)))
    obtain ⟨s, hget, hle, hs1, hs2⟩ := hlow.resolve hi hin
    refine ⟨he1.trans he15, hin, .inr ?_⟩
    rcases hb with ⟨hi1, hb⟩ | hb
    · have hhigh := (hb.evolves (he1.trans he15)).and ((htj.evolves he25).and (hpb.evolves he5))
      obtain ⟨s', hget', hlt, hs1', hs2'⟩ := hhigh.resolve hi1 (by omega)
      refine ⟨s, s', hi1, hget, hget', hle, hlt, ?_⟩
      rw [hs1, hs2, hs1', hs2']
    · -- the two probes of `i` disagree: the ring had lapped it
      obtain ⟨s', hget', hlt⟩ := (hb.evolves (he1.trans he15)).resolve hi hin
      obtain rfl : s = s' := Option.some_inj.mp (hget.symm.trans hget')
      omega

/-- The newest sample, held. -/
theorem held_race (hc : 2 ≤ r.capacity) (hr : r.Reading h m) (hi : i < h) :
    RingProg.wpRead r.Evolves (r.held i).run (Prog.onOk fun p m' => r.Evolves m m' ∧
      (m' r.edge).head < i + r.capacity ∧
      ∃ s, (m' r.edge).published[i]? = some s ∧ p = s.2) m := by
  refine Prog.wp_bindE (readSlot_race hr fun p m1 he1 hp => ?_)
  refine revalidated_race hc fun m2 he2 hin => ⟨he1.trans he2, hin, ?_⟩
  obtain ⟨s, hget, hs⟩ := (hp.evolves he2).resolve hi hin
  exact ⟨s, hget, hs.symm⟩

/-- The extension of the newest samples; `tNew` is the stamp the reader saw. -/
theorem constantTwist_race (hc : 2 ≤ r.capacity) (h0 : 0 < h) {tNew : ℤ}
    (hnew : r.Seen h (h - 1) (·.1 = tNew) m) :
    RingProg.wpRead r.Evolves
      (r.constantTwist (h - min h r.retained) (h - 1) t tNew).run (Prog.onOk fun v m' =>
        r.Evolves m m' ∧ (m' r.edge).head < h - 1 + r.capacity ∧
        ∃ s, (m' r.edge).published[h - 1]? = some s ∧
          r.Extended (m' r.edge).published id t h s .constantTwist v.1) m := by
  have hret := SampleRing.retained_of_two_le hc
  unfold SampleRing.constantTwist
  by_cases hone : min h r.retained = 1
  · rw [if_pos (show h - 1 = h - min h r.retained by omega)]
    refine Prog.wp_bindE (readSlot_race hnew.1 fun p m1 he1 hp => ?_)
    refine revalidated_race hc fun m2 he2 hin => ⟨he1.trans he2, hin, ?_⟩
    obtain ⟨s, hget, hs⟩ := (hp.evolves he2).resolve (by omega) hin
    refine ⟨s, hget, ?_⟩
    simp only [SampleRing.Extended, if_pos hone]
    exact hs.symm
  · rw [if_neg (show h - 1 ≠ h - min h r.retained by omega)]
    refine Prog.wp_bindE (Prog.wp_liftE (stampAt_race hnew.1 fun tPrev m1 he1 htp => ?_))
    refine Prog.wp_bindE (readSlot_race htp.1 fun a m2 he2 ha => ?_)
    refine Prog.wp_bindE (readSlot_race ha.1 fun b m3 he3 hb => ?_)
    refine revalidated_race hc fun m4 he4 hin => ?_
    have he24 := (he2.trans he3).trans he4
    have hprev := (htp.evolves he24).and (ha.evolves (he3.trans he4))
    have hlast := (hnew.evolves (he1.trans he24)).and (hb.evolves he4)
    obtain ⟨s, hget, hs1, hs2⟩ := hprev.resolve (by omega) hin
    obtain ⟨s', hget', hs1', hs2'⟩ := hlast.resolve (by omega) (by omega)
    refine ⟨he1.trans he24, by omega, s', hget', ?_⟩
    simp only [SampleRing.Extended, if_neg hone]
    exact ⟨s, hget, by rw [hs1, hs2, hs1', hs2']; rfl⟩

theorem extrapolated_race (hc : 2 ≤ r.capacity) (h0 : 0 < h) {tOld tNew : ℤ}
    (hnew : r.Seen h (h - 1) (·.1 = tNew) m) (policy : ExtrapPolicy) :
    RingProg.wpRead r.Evolves
      (r.extrapolated (h - min h r.retained) (h - 1) t tOld tNew policy).run
      (Prog.onOk fun p m' => r.Evolves m m' ∧ (m' r.edge).head < h - 1 + r.capacity ∧
        ∃ s, (m' r.edge).published[h - 1]? = some s ∧
          r.Extended (m' r.edge).published id t h s policy p) m := by
  cases policy with
  | error => trivial
  | hold => exact held_race hc hnew.1 (by omega)
  | constantTwist =>
    exact Prog.wp_bindE (Prog.wp_mono (fun out m' hpost => by cases out <;> exact hpost)
      (constantTwist_race hc h0 hnew))

theorem SampleRing.Extended.map {pub : List (ℤ × Iso3 F)} {s : ℤ × Iso3 F}
    {policy : ExtrapPolicy} {p : Iso3 F} (hx : r.Extended pub id t h s policy p) :
    r.Extended pub exact' t h s policy (exact' p) := by
  cases policy with
  | error => exact hx
  | hold => exact congrArg exact' hx
  | constantTwist =>
    simp only [SampleRing.Extended] at hx ⊢
    split_ifs at hx ⊢ with hone
    · exact congrArg exact' hx
    · obtain ⟨prev, hget, hx⟩ := hx
      exact ⟨prev, hget, congrArg exact' hx⟩

/-- The search may assume that the oldest stamp was seen `≤ t` and the newest `> t`. -/
def SeeksRacing (r : SampleRing F) (t : ℤ) (seek : ℕ → ℕ → RingProg F ℕ) : Prop :=
  ∀ h m, 0 < h → r.Seen h (h - min h r.retained) (·.1 ≤ t) m → r.Seen h (h - 1) (t < ·.1) m →
    RingProg.wpRead r.Evolves (seek (h - min h r.retained) (h - 1))
      (Bracketed (fun i => r.Seen h i (·.1 ≤ t)) (fun i => r.Seen h i (t < ·.1))
        (h - min h r.retained) (h - 1)) m

/-- The outcome of a racing read that started in `m₀`: an error, or a read of the
    samples below a `head` the writer had reached by then. -/
def SampleRing.RaceOutcome (r : SampleRing F) (m₀ : RingArena F) (exact' : Iso3 F → B)
    (between : Iso3 F → Iso3 F → F → B) (t : ℤ) (policy : ExtrapPolicy) :
    Except LookupError B → RingArena F → Prop :=
  Prog.onOk fun v m' => r.Evolves m₀ m' ∧ ∃ h, (m₀ r.edge).head ≤ h ∧ h ≤ (m' r.edge).head ∧
    r.Sampled (m' r.edge).published exact' between t policy h v

/-- **Step lemma.** A reader that returns a value read published samples. -/
theorem readWith_race (hc : 2 ≤ r.capacity) (hok : r.Ok m) {policy : ExtrapPolicy}
    {seek : ℕ → ℕ → RingProg F ℕ} {cursor : ℕ} (hseek : SeeksRacing r t seek) :
    RingProg.wpRead r.Evolves (r.readWith exact' between seek t policy cursor)
      (fun out => r.RaceOutcome m exact' between t policy out.1) m := by
  have hret := SampleRing.retained_of_two_le hc
  unfold SampleRing.readWith
  refine Prog.wp_seq (r.wpRead_loadHead.mpr fun m1 he1 => ?_)
  have hle1 := he1.head_le hok
  have hr1 : r.Reading (m1 r.edge).head m1 := ⟨(he1 hok).1, le_rfl⟩
  generalize (m1 r.edge).head = h at hle1 hr1
  split_ifs with h0
  · trivial
  refine Prog.wp_seq (stampAt_race hr1 fun tOld m2 he2 hOld => ?_)
  refine Prog.wp_seq (stampAt_race hOld.1 fun tNew m3 he3 hNew => ?_)
  have he13 := (he1.trans he2).trans he3
  split_ifs with h1 h2 h3
  · trivial
  · -- past the newest stamp
    refine Prog.wp_seq (Prog.wp_mono ?_ (extrapolated_race hc (by omega) hNew policy))
    rintro (e | p) m4 hpost
    · trivial
    · obtain ⟨he4, hin, s, hget, hx⟩ := hpost
      obtain ⟨s', hget', hs'⟩ := (hNew.evolves he4).resolve (by omega) hin
      obtain rfl : s = s' := Option.some_inj.mp (hget.symm.trans hget')
      refine ⟨he13.trans he4, h, hle1, (hNew.evolves he4).1.le, s, hget, fun hle => ?_,
        fun _ => hx.map⟩
      omega
  · -- at the newest stamp
    refine Prog.wp_seq (Prog.wp_mono ?_ (held_race hc hNew.1 (by omega)))
    rintro (e | p) m4 hpost
    · trivial
    · obtain ⟨he4, hin, s, hget, hs⟩ := hpost
      obtain ⟨s', hget', hs'⟩ := (hNew.evolves he4).resolve (by omega) hin
      obtain rfl : s = s' := Option.some_inj.mp (hget.symm.trans hget')
      refine ⟨he13.trans he4, h, hle1, (hNew.evolves he4).1.le, s, hget, fun _ => ?_,
        fun hlt => ?_⟩
      · exact .inl ⟨h - 1, s, by omega, hget, by omega, congrArg exact' hs⟩
      · omega
  · -- inside the window
    refine Prog.wp_seq (Prog.wp_mono ?_ (Prog.wp_frame (P := r.Evolves m3)
      (fun _ _ he he' => he.trans he') (by rintro _ _ he rfl; exact he) (.refl r m3)
      (hseek h m3 (by omega) ?_ ?_)))
    · rintro i m4 ⟨he4, hlo, hhi, ha, hb⟩
      refine Prog.wp_seq (Prog.wp_mono ?_ (readBracket_race hc (show i < h by omega) ha
        (hb.imp_left fun hb => ⟨by omega, hb.2⟩)))
      rintro (e | v) m5 hpost
      · trivial
      · obtain ⟨he5, hin, hv⟩ := hpost
        have hNew5 := (hNew.evolves he4).evolves he5
        obtain ⟨s, hget, hs⟩ := hNew5.resolve (by omega) (by omega)
        refine ⟨(he13.trans he4).trans he5, h, hle1, hNew5.1.le, s, hget, fun _ => ?_,
          fun hlt => ?_⟩
        · rcases hv with ⟨a, hga, ha1, hva⟩ | ⟨a, b, hab, hv⟩
          · exact .inl ⟨i, a, by omega, hga, ha1, hva⟩
          · exact .inr ⟨i, a, b, hab, hv⟩
        · omega
    · exact (hOld.evolves he3).mono fun s hs => by omega
    · exact hNew.mono fun s hs => by omega

omit [Kernels F] in
theorem seeksRacing_bracket (hc : 2 ≤ r.capacity) (t : ℤ) :
    SeeksRacing r t fun lo hi => r.bracket lo hi t := by
  intro h m h0 ha hb
  have hret := SampleRing.retained_of_two_le hc
  exact bracket_spec (probe_seen r t h _ _) le_rfl (by omega) le_rfl ha hb

omit [Kernels F] in
theorem seeksRacing_bracketFrom (hc : 2 ≤ r.capacity) (t : ℤ) (cursor : ℕ) :
    SeeksRacing r t fun lo hi => r.bracketFrom lo hi t cursor := by
  intro h m h0 ha hb
  have hret := SampleRing.retained_of_two_le hc
  exact bracketFrom_spec (probe_seen r t h _ _) (by omega) ha hb

/-! ## Interleavings -/

/-- A writer that pushes the samples one after the other, whatever `push` returns. -/
def SampleRing.pushAll (r : SampleRing F) : List (ℤ × Iso3 F) → RingProg F Unit
  | [] => pure ()
  | s :: ss => do
    let _ ← r.push s.1 s.2
    pushAll r ss

omit [Kernels F] in
theorem pushAll_spec (hp : r.PowerOfTwo) (hc : 2 ≤ r.capacity) (samples : List (ℤ × Iso3 F))
    (hok : r.Ok m) :
    (r.pushAll samples).wp RingOp.exec Eq r.Evolves (fun _ m' => r.Ok m') m := by
  induction samples generalizing m with
  | nil => exact hok
  | cons s ss ih =>
    refine Prog.wp_seq (Prog.wp_mono ?_ (push_spec (SampleRing.admits_evolves m s) hp hc hok))
    rintro (e | ⟨⟩) m' hpost
    · obtain ⟨rfl, -⟩ := hpost
      exact ih hok
    · exact ih hpost.1

theorem SampleRing.Sampled.prefix {pub pub' : List (ℤ × Iso3 F)} {policy : ExtrapPolicy} {v : B}
    (hs : r.Sampled pub exact' between t policy h v) (hpub : pub <+: pub') :
    r.Sampled pub' exact' between t policy h v := by
  have hget : ∀ {i : ℕ} {s : ℤ × Iso3 F}, pub[i]? = some s → pub'[i]? = some s := by
    intro i s hi
    obtain ⟨hlt, rfl⟩ := List.getElem?_eq_some_iff.mp hi
    exact List.prefix_iff_getElem?.mp hpub i hlt
  obtain ⟨newest, hnew, hin, hpast⟩ := hs
  refine ⟨newest, hget hnew, fun hle => ?_, fun hlt => ?_⟩
  · rcases hin hle with ⟨i, s, hi, hgs, hs⟩ | ⟨i, s, s', hi, hgs, hgs', hs⟩
    · exact .inl ⟨i, s, hi, hget hgs, hs⟩
    · exact .inr ⟨i, s, s', hi, hget hgs, hget hgs', hs⟩
  · have hx := hpast hlt
    cases policy with
    | error => exact hx
    | hold => exact hx
    | constantTwist =>
      simp only [SampleRing.Extended] at hx ⊢
      split_ifs at hx ⊢ with hone
      · exact hx
      · obtain ⟨prev, hgp, hx⟩ := hx
        exact ⟨prev, hget hgp, hx⟩

theorem SampleRing.RaceOutcome.evolves {m₀ m' : RingArena F} {policy : ExtrapPolicy}
    {out : Except LookupError B} (hok : r.Ok m₀)
    (ho : r.RaceOutcome m₀ exact' between t policy out m) (he : r.Evolves m m') :
    r.RaceOutcome m₀ exact' between t policy out m' := by
  cases out with
  | error e => trivial
  | ok v =>
    obtain ⟨he0, h, hlo, hhi, hs⟩ := ho
    have hok' := (he0 hok).1
    exact ⟨he0.trans he, h, hlo, hhi.trans (he.head_le hok'), hs.prefix (he hok').2⟩

omit [Kernels F] in
/-- **Run lemma.** What a reading program establishes in a race holds at the end of
    every interleaving with a writer. -/
theorem race_par {α : Type} {m₀ : RingArena F} {p : RingProg F α} {Q : α → RingArena F → Prop}
    (hp : r.PowerOfTwo) (hc : 2 ≤ r.capacity) (hok : r.Ok m₀)
    (hQ : ∀ a m m', Q a m → r.Evolves m m' → Q a m') (hwp : RingProg.wpRead r.Evolves p Q m₀)
    {samples : List (ℤ × Iso3 F)} {a : α} {q : RingProg F Unit}
    (h : Par RingOp.exec (m₀, p, r.pushAll samples) (m, .ret a, q)) : Q a m := by
  have hw := pushAll_spec hp hc samples hok
  have hreads : ∀ m m' : RingArena F, m = m' → m = m' := fun _ _ h => h
  have hwrites : ∀ m m', r.Evolves m m' → r.Evolves m m' := fun _ _ h => h
  have htrans : ∀ m m' m'', r.Evolves m m' → r.Evolves m' m'' → r.Evolves m m'' :=
    fun _ _ _ h h' => h.trans h'
  have hok' : ∀ (_ : Unit) (m m' : RingArena F), r.Ok m → m = m' → r.Ok m' :=
    fun _ _ _ h he => he ▸ h
  exact (wp_par hreads hwrites htrans (fun _ _ _ h h' => h.trans h') (.refl r) (fun _ => rfl) hQ
    hok' hwp hw h).1

/-- **Main theorem.** Over every interleaving with a writer that pushes any samples,
    a value that `sample` returns, or a cursor-seeking read from any cursor, is the
    interpolation of consecutively published samples around `t`, a published sample
    at `t`, or past the newest stamp the policy's extension of published samples. -/
theorem reads_are_published (hp : r.PowerOfTwo) (hc : 2 ≤ r.capacity) {m₀ : RingArena F}
    (hok : r.Ok m₀) (samples : List (ℤ × Iso3 F)) (q : RingProg F Unit) (policy : ExtrapPolicy) :
    (∀ interp v, Par RingOp.exec (m₀, r.sample interp t policy, r.pushAll samples)
        (m, .ret (.ok v), q) →
      ∃ h, (m₀ r.edge).head ≤ h ∧ h ≤ (m r.edge).head ∧
        r.Sampled (m r.edge).published id interp t policy h v) ∧
    ∀ (exact' : Iso3 F → B) (between : Iso3 F → Iso3 F → F → B) cursor v c,
      Par RingOp.exec (m₀, r.readFrom exact' between t policy cursor, r.pushAll samples)
        (m, .ret (.ok v, c), q) →
      ∃ h, (m₀ r.edge).head ≤ h ∧ h ≤ (m r.edge).head ∧
        r.Sampled (m r.edge).published exact' between t policy h v := by
  constructor
  · intro interp v h
    have hwp : RingProg.wpRead r.Evolves (r.sample interp t policy)
        (r.RaceOutcome m₀ id interp t policy) m₀ :=
      Prog.wp_seq (Prog.wp_mono (fun _ _ h => h) (readWith_race hc hok (seeksRacing_bracket hc t)))
    exact (race_par hp hc hok (fun _ _ _ ho he => ho.evolves hok he) hwp h).2
  · intro exact' between cursor v c h
    have hwp : RingProg.wpRead r.Evolves (r.readFrom exact' between t policy cursor)
        (fun out => r.RaceOutcome m₀ exact' between t policy out.1) m₀ :=
      readWith_race hc hok (seeksRacing_bracketFrom hc t cursor)
    exact (race_par hp hc hok (fun _ _ _ ho he => ho.evolves hok he) hwp h).2

end Readers

/-- Two poses on a line. -/
def linePoses : List (ℤ × Iso3 ℚ) :=
  [(10, ⟨⟨1, 0, 0, 0⟩, ⟨5, 0, 0⟩⟩), (20, ⟨⟨1, 0, 0, 0⟩, ⟨7, 0, 0⟩⟩)]

/-- The arena after the two pushes. -/
def lineArena : RingArena ℚ :=
  ((⟨0, 4⟩ : SampleRing ℚ).pushAll linePoses).runFor RingOp.exec 100 emptyArena

/-- The reader starts behind the two poses, and the third one is pushed in the middle of its
    accesses. -/
def thirdTurns : List Turn :=
  List.flatten [List.replicate 29 .right, List.replicate 4 .left, List.replicate 8 .right,
    List.replicate 5 .left, List.replicate 7 .right, List.replicate 4 .left]

theorem reads_are_published_interleaved : ∃ m : RingArena ℚ, (m 0).head = 3 ∧
    ∃ h ≤ 3, (⟨0, 4⟩ : SampleRing ℚ).Sampled (m 0).published id Kernels.scLerp 20 .error h
      ⟨⟨1, 0, 0, 0⟩, ⟨7, 0, 0⟩⟩ := by
  obtain ⟨m, q, hturns, hhead⟩ : ∃ m q, thirdTurns.foldlM (parTurn RingOp.exec)
      (emptyArena, (⟨0, 4⟩ : SampleRing ℚ).sample Kernels.scLerp 20 .error,
        (⟨0, 4⟩ : SampleRing ℚ).pushAll (linePoses ++ [(30, ⟨⟨1, 0, 0, 0⟩, ⟨9, 0, 0⟩⟩)])) =
        some (m, .ret (.ok ⟨⟨1, 0, 0, 0⟩, ⟨7, 0, 0⟩⟩), q) ∧ (m 0).head = 3 := ⟨_, _, rfl, rfl⟩
  obtain ⟨h, -, hle, hs⟩ := (reads_are_published (B := Iso3 ℚ) (r := ⟨0, 4⟩) (t := 20) ⟨2, rfl⟩
    (by decide) (.of_empty rfl rfl) _ q .error).1 Kernels.scLerp _ (par_of_turns hturns)
  exact ⟨m, hhead, h, hhead ▸ hle, hs⟩

end TfTree
