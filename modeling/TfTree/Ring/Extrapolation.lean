import TfTree.Ring.Race
import TfTree.Ring.Access

/-!
# Extrapolation in a race

When a reader that races its writer reports `Extrapolation`
(`tf_tree_core/src/sample.rs`). The stamp of the oldest index of the window is
loaded after `head` and never revalidated: the writer may have reused its slot for
a later sample, and the reader then takes that sample's stamp for the oldest one.

The stamps are the only payload that matters here, so the invariant is about them
alone (`SampleRing.Stamped`) and holds of rings of every capacity.

Results:
* `push_stamped`: along a push no slot goes back to an older stamp.
* `extrapolation_truthful`: in every race in which the oldest stamp is not
  misread, `Extrapolation` means that `t` was outside the window at some moment.
* `extrapolation_misread`: a race in which it never was.
-/

namespace TfTree

open Conc

variable {F : Type}

/-! ## The window and its stamps -/

/-- `t` is older than the oldest retained sample, or newer than the newest. -/
def SampleRing.Outside (r : SampleRing F) (t : ℤ) (m : RingArena F) : Prop :=
  (∃ s ∈ (m r.edge).published[(m r.edge).head - min (m r.edge).head r.retained]?, t < s.1) ∨
    ∃ s ∈ (m r.edge).published[(m r.edge).head - 1]?, s.1 < t

instance (r : SampleRing F) (t : ℤ) (m : RingArena F) : Decidable (r.Outside t m) :=
  inferInstanceAs (Decidable (_ ∨ _))

/-- `head` counts the published samples, their stamps do not decrease, and from the
    index `low` on no slot holds an older stamp than the one published in it. -/
structure SampleRing.Stamped (r : SampleRing F) (low : ℕ) (m : RingArena F) : Prop where
  low_le : low ≤ (m r.edge).head - 1
  head : (m r.edge).head = (m r.edge).published.length
  sorted : (m r.edge).published.Pairwise fun a b => a.1 ≤ b.1
  later : ∀ i s, (m r.edge).published[i]? = some s → low ≤ i → s.1 ≤ r.stampOf m i

/-- A step of the writer, as far as the stamps are concerned. -/
def SampleRing.Restamps (r : SampleRing F) (low : ℕ) (m m' : RingArena F) : Prop :=
  r.Stamped low m → r.Stamped low m' ∧ (m r.edge).published <+: (m' r.edge).published

section Stamps

variable {r : SampleRing F} {low : ℕ} {m m' m'' : RingArena F}

theorem SampleRing.Restamps.refl (r : SampleRing F) (low : ℕ) (m : RingArena F) :
    r.Restamps low m m := by
  intro h
  exact ⟨h, List.prefix_rfl⟩

theorem SampleRing.Restamps.trans (h : r.Restamps low m m') (h' : r.Restamps low m' m'') :
    r.Restamps low m m'' := by
  intro hm
  obtain ⟨hm', hp⟩ := h hm
  obtain ⟨hm'', hp'⟩ := h' hm'
  exact ⟨hm'', hp.trans hp'⟩

theorem SampleRing.Stamped.of_empty (hhead : (m r.edge).head = 0)
    (hpub : (m r.edge).published = []) : r.Stamped ((m r.edge).head - 1) m where
  low_le := le_rfl
  head := by rw [hhead, hpub]; rfl
  sorted := by rw [hpub]; exact List.Pairwise.nil
  later := by
    intro i s hs
    rw [hpub] at hs
    cases hs

/-- What any history of pushes leaves, deaths included. -/
theorem SampleRing.Ok.stamped (hok : r.Ok m) (hc : 2 ≤ r.capacity) :
    r.Stamped ((m r.edge).head - 1) m where
  low_le := le_rfl
  head := hok.head
  sorted := hok.sorted
  later := by
    intro i s hs hi
    exact (hok.stored i s hs (by omega)).stamp.ge

/-- The newest published stamp bounds all others. -/
theorem SampleRing.Stamped.le_newest (hm : r.Stamped low m) {a : ℤ × Iso3 F}
    (ha : a ∈ (m r.edge).published) : a.1 ≤ r.stampOf m ((m r.edge).head - 1) := by
  obtain ⟨j, hj, rfl⟩ := List.getElem_of_mem ha
  have hhead := hm.head
  have hlt : (m r.edge).head - 1 < (m r.edge).published.length := by omega
  have hnew := hm.later _ _ (List.getElem?_eq_getElem hlt) hm.low_le
  rcases Nat.lt_or_ge j ((m r.edge).head - 1) with hlt' | hge
  · exact (List.pairwise_iff_getElem.mp hm.sorted j _ hj hlt hlt').trans hnew
  · obtain rfl : j = (m r.edge).head - 1 := by omega
    exact hnew

/-! ## The stores of a push -/

/-- A state of a push of `stamp` that found the samples `pub` and stores into the slot
    of `h`. -/
structure SampleRing.Filling (r : SampleRing F) (low h : ℕ) (pub : List (ℤ × Iso3 F)) (stamp : ℤ)
    (m : RingArena F) : Prop where
  stamped : r.Stamped low m
  head : (m r.edge).head = h
  published : (m r.edge).published = pub
  stamp : r.stampOf m h = stamp

/-- The access touches neither a stamp nor `head`. -/
def RingOp.IsQuiet : RingOp F → Prop
  | .storeStamp _ _ _ | .storeHead _ _ _ => False
  | _ => True

theorem RingOp.exec_of_isQuiet {o : RingOp F} (h : o.IsQuiet) (m : RingArena F) (e : EdgeId) :
    ((o.exec m).2 e).head = (m e).head ∧ ((o.exec m).2 e).published = (m e).published ∧
      ((o.exec m).2 e).stamps = (m e).stamps := by
  cases o with
  | storeStamp => exact h.elim
  | storeHead => exact h.elim
  | loadHead | loadStamp | loadSeq | loadData => exact ⟨rfl, rfl, rfl⟩
  | storeSeq e' | storeData e' | storeHeartbeat e' =>
    by_cases he : e = e'
    · subst he
      simp [RingOp.exec]
    · simp [RingOp.exec, upd_of_ne _ _ he]

/-- Stores that leave `head`, the samples and the stamps alone. -/
theorem SampleRing.Stamped.congr (hm : r.Stamped low m)
    (h : (m' r.edge).head = (m r.edge).head ∧ (m' r.edge).published = (m r.edge).published ∧
      (m' r.edge).stamps = (m r.edge).stamps) : r.Stamped low m' := by
  obtain ⟨hhead, hpub, hst⟩ := h
  refine ⟨?_, ?_, ?_, ?_⟩
  · rw [hhead]
    exact hm.low_le
  · rw [hhead, hpub]
    exact hm.head
  · rw [hpub]
    exact hm.sorted
  · intro i s hs hi
    rw [hpub] at hs
    show s.1 ≤ (m' r.edge).stamps (r.slot i)
    rw [hst]
    exact hm.later i s hs hi

/-- The quiet accesses of a push that has stored its stamp. -/
theorem quiet_spec {h : ℕ} {pub : List (ℤ × Iso3 F)} {stamp : ℤ} {α : Type} {p : RingProg F α}
    (hp : p.Only RingOp.IsQuiet) (hm : r.Filling low h pub stamp m) :
    p.wp RingOp.exec Eq (r.Restamps low) (fun _ => r.Filling low h pub stamp) m := by
  refine Prog.wp_only (fun o m ho hm => ?_) hp hm
  have hsame := RingOp.exec_of_isQuiet ho m r.edge
  have hst := hm.stamped.congr hsame
  obtain ⟨hhead, hpub, hstamps⟩ := hsame
  refine ⟨fun _ => ⟨hst, ?_⟩, hst, hhead.trans hm.head, hpub.trans hm.published, ?_⟩
  · rw [hpub]
  · show ((o.exec m).2 r.edge).stamps (r.slot h) = stamp
    rw [hstamps]
    exact hm.stamp

/-- The stamp of a sample that is not older than those published may go anywhere. -/
theorem SampleRing.Stamped.storeStamp (hm : r.Stamped low m) (idx : ℕ) {stamp : ℤ}
    (hmax : ∀ a ∈ (m r.edge).published, a.1 ≤ stamp) :
    r.Stamped low (RingOp.exec (.storeStamp r.edge idx stamp) m).2 := by
  have hsame := sameBut_storeStamp (r := r) m idx stamp
  refine ⟨?_, ?_, ?_, ?_⟩
  · rw [hsame.head]
    exact hm.low_le
  · rw [hsame.head, hsame.published]
    exact hm.head
  · rw [hsame.published]
    exact hm.sorted
  · intro i s hs hi
    rw [hsame.published] at hs
    by_cases hidx : r.slot i = idx
    · have hst : r.stampOf (RingOp.exec (.storeStamp r.edge idx stamp) m).2 i = stamp := by
        simp [SampleRing.stampOf, RingOp.exec, hidx]
      rw [hst]
      exact hmax s (List.mem_of_getElem? hs)
    · have hst := hsame.stamps _ hidx
      show s.1 ≤ (_ : ℤ)
      unfold SampleRing.stampOf
      rw [hst]
      exact hm.later i s hs hi

/-- The `head` store publishes a stamp that is in its slot. -/
theorem SampleRing.Filling.publish {h : ℕ} {pub : List (ℤ × Iso3 F)} {stamp : ℤ}
    (hm : r.Filling low h pub stamp m) (hmax : ∀ a ∈ pub, a.1 ≤ stamp) (iso : Iso3 F) :
    r.Stamped low (RingOp.exec (.storeHead r.edge (h + 1) (stamp, iso)) m).2 := by
  have hlow := hm.stamped.low_le
  have hlen := hm.stamped.head
  rw [hm.head] at hlow
  rw [hm.head, hm.published] at hlen
  refine ⟨?_, ?_, ?_, ?_⟩
  · simp only [RingOp.exec, upd_self]
    omega
  · simp [RingOp.exec, hm.published, hlen]
  · have hsorted := hm.stamped.sorted
    rw [hm.published] at hsorted
    simp only [RingOp.exec, upd_self, hm.published, List.pairwise_append]
    refine ⟨hsorted, List.pairwise_singleton _ _, ?_⟩
    intro a ha b hb
    obtain rfl := List.mem_singleton.mp hb
    exact hmax a ha
  · intro i s hs hi
    have hst : r.stampOf (RingOp.exec (.storeHead r.edge (h + 1) (stamp, iso)) m).2 i =
        r.stampOf m i := by simp [SampleRing.stampOf, RingOp.exec]
    simp only [RingOp.exec, upd_self, hm.published] at hs
    rw [hst]
    by_cases hlt : i < pub.length
    · rw [List.getElem?_append_left hlt, ← hm.published] at hs
      exact hm.stamped.later i s hs hi
    · obtain ⟨hlt', -⟩ := List.getElem?_eq_some_iff.mp hs
      rw [List.length_append, List.length_singleton] at hlt'
      obtain rfl : i = pub.length := by omega
      rw [List.getElem?_concat_length] at hs
      obtain rfl := Option.some_inj.mp hs
      rw [← hlen, hm.stamp]

theorem storeWords_quiet (idx : ℕ) (bits : Fin 7 → F) (is : List (Fin 7)) :
    (r.storeWords idx bits is).Only RingOp.IsQuiet := by
  induction is with
  | nil => trivial
  | cons i is ih => exact (Prog.Only.op trivial).bind fun _ => ih

/-- The stores of a push, after its stamp check. -/
theorem pushSlot_stamped {stamp : ℤ} {iso : Iso3 F} (hm : r.Stamped low m)
    (hmax : ∀ a ∈ (m r.edge).published, a.1 ≤ stamp) :
    (r.pushSlot (m r.edge).head stamp iso).wp RingOp.exec Eq (r.Restamps low)
      (fun _ => r.Stamped low) m := by
  unfold SampleRing.pushSlot
  refine Prog.wp_seq (wp_load (o := .loadSeq r.edge (r.slot (m r.edge).head)) trivial
    (.refl r low m) ?_)
  -- the sequence word goes odd
  have hsame := RingOp.exec_of_isQuiet (o := .storeSeq r.edge (r.slot (m r.edge).head)
    ((RingOp.exec (.loadSeq r.edge (r.slot (m r.edge).head)) m).1 ||| 1#32)) trivial m r.edge
  refine Prog.wp_seq (Prog.wp_op_eq ?_ ?_)
  · intro _
    exact ⟨hm.congr hsame, by rw [hsame.2.1]⟩
  generalize (RingOp.exec (.storeSeq r.edge (r.slot (m r.edge).head)
    ((RingOp.exec (.loadSeq r.edge (r.slot (m r.edge).head)) m).1 ||| 1#32)) m).2 = m1 at hsame ⊢
  have hm1 : r.Stamped low m1 := hm.congr hsame
  have hmax1 : ∀ a ∈ (m1 r.edge).published, a.1 ≤ stamp := by
    rw [hsame.2.1]
    exact hmax
  -- the stamp
  have hst := hm1.storeStamp (r.slot (m r.edge).head) hmax1
  have hbut := sameBut_storeStamp (r := r) m1 (r.slot (m r.edge).head) stamp
  refine Prog.wp_seq (Prog.wp_op_eq ?_ ?_)
  · intro _
    exact ⟨hst, by rw [hbut.published]⟩
  have hfill : r.Filling low (m r.edge).head (m r.edge).published stamp
      (RingOp.exec (.storeStamp r.edge (r.slot (m r.edge).head) stamp) m1).2 := by
    refine ⟨hst, hbut.head.trans hsame.1, hbut.published.trans hsame.2.1, ?_⟩
    simp [SampleRing.stampOf, RingOp.exec]
  -- the payload, and the sequence word goes even
  refine Prog.wp_seq (Prog.wp_mono ?_ (quiet_spec (storeWords_quiet _ _ _) hfill))
  intro _ m2 hm2
  refine Prog.wp_seq (Prog.wp_mono ?_ (quiet_spec (Prog.Only.op trivial) hm2))
  intro _ m3 hm3
  -- `head` publishes it
  have hpub := hm3.publish hmax iso
  refine Prog.wp_seq (Prog.wp_op_eq ?_ ?_)
  · intro _
    refine ⟨hpub, ?_⟩
    simp [RingOp.exec]
  have hsame' := RingOp.exec_of_isQuiet (o := .storeHeartbeat r.edge ((m r.edge).head + 1)) trivial
    (RingOp.exec (.storeHead r.edge ((m r.edge).head + 1) (stamp, iso)) m3).2 r.edge
  refine Prog.wp_op_eq ?_ (hpub.congr hsame')
  intro _
  exact ⟨hpub.congr hsame', by rw [hsame'.2.1]⟩

/-- **Step lemma.** A push keeps the stamps in order, on a ring of any capacity. -/
theorem push_stamped (stamp : ℤ) (iso : Iso3 F) (hm : r.Stamped low m) :
    (r.push stamp iso).wp RingOp.exec Eq (r.Restamps low) (fun _ => r.Stamped low) m := by
  unfold SampleRing.push
  refine Prog.wp_seq (wp_load (o := .loadHead r.edge) trivial (.refl r low m) ?_)
  change Prog.wp _ _ _ (if (m r.edge).head > 0 then _ else _) _ _
  by_cases h0 : (m r.edge).head > 0
  · rw [if_pos h0]
    refine Prog.wp_seq (wp_load (o := .loadStamp r.edge (r.slot ((m r.edge).head - 1))) trivial
      (.refl r low m) ?_)
    change Prog.wp _ _ _ (if stamp < r.stampOf m ((m r.edge).head - 1) then _ else _) _ _
    by_cases hlt : stamp < r.stampOf m ((m r.edge).head - 1)
    · rw [if_pos hlt]
      exact hm
    · rw [if_neg hlt]
      refine Prog.wp_seq (Prog.wp_mono (fun _ _ h => h) (pushSlot_stamped hm ?_))
      intro a ha
      exact (hm.le_newest ha).trans (not_lt.mp hlt)
  · rw [if_neg h0]
    refine Prog.wp_seq (Prog.wp_mono (fun _ _ h => h) (pushSlot_stamped hm ?_))
    intro a ha
    have hlen := hm.head
    have hpos := List.length_pos_of_mem ha
    omega

theorem pushAll_stamped (samples : List (ℤ × Iso3 F)) (hm : r.Stamped low m) :
    (r.pushAll samples).wp RingOp.exec Eq (r.Restamps low) (fun _ => r.Stamped low) m := by
  induction samples generalizing m with
  | nil => exact hm
  | cons s ss ih =>
    refine Prog.wp_seq (Prog.wp_mono ?_ (push_stamped s.1 s.2 hm))
    intro _ m' hm'
    exact ih hm'

end Stamps

/-! ## What a reader may return -/

/-- The reader of the call `p` that has loaded `h` from `head`. -/
def afterHead {α : Type} : RingProg F α → ℕ → RingProg F α
  | .call (.loadHead _) k, h => k h
  | p, _ => p

/-- The oldest index of the window is at or before `t`, but the stamp in its slot,
    that of a later sample, is after `t`. -/
def SampleRing.Misread (r : SampleRing F) (t : ℤ) (h : ℕ) (m : RingArena F) : Prop :=
  (∃ s ∈ (m r.edge).published[h - min h r.retained]?, s.1 ≤ t) ∧
    t < r.stampOf m (h - min h r.retained)

/-- The states of a race: the memory, the reader and the writer. -/
abbrev Race (F α : Type) := RingArena F × RingProg F α × RingProg F Unit

/-- The step is not the load of a misread oldest stamp by the reader of the call `p`. -/
def SampleRing.TrueOldest {α : Type} (r : SampleRing F) (t : ℤ) (p : RingProg F α)
    (s : Race F α) (turn : Turn) : Prop :=
  turn = .left → ∀ h, s.2.1 = afterHead p h → ¬ r.Misread t h s.1

/-- `Extrapolation` is returned after a moment at which `t` was outside the window;
    while it is inside, the reader returns a value or tells that it lost a race. -/
structure SampleRing.Truthful {B : Type} (r : SampleRing F) (t : ℤ)
    (moments : List (RingArena F)) (out : Except LookupError B) : Prop where
  extrapolation : ∀ edge requested oldest newest,
    out = .error (.extrapolation edge requested oldest newest) → ∃ m ∈ moments, r.Outside t m
  inside : (∀ m ∈ moments, ¬ r.Outside t m) → Prog.onError r.Retries out

section Reader

variable [Kernels F] {B α : Type} {r : SampleRing F} {m m' : RingArena F} {low h : ℕ} {t : ℤ}
  {exact' : Iso3 F → B} {between : Iso3 F → Iso3 F → F → B}

/-! ## The reader in a race -/

/-- What the reader knows after its load of `h`, when `t` was inside the window then. -/
structure SampleRing.Loaded (r : SampleRing F) (low : ℕ) (t : ℤ) (h : ℕ) (m : RingArena F) :
    Prop where
  pos : 0 < h
  low_le : low ≤ h - 1
  oldest : ∃ s ∈ (m r.edge).published[h - min h r.retained]?, s.1 ≤ t
  newest : ∃ s ∈ (m r.edge).published[h - 1]?, t ≤ s.1

/-- The reader of the call `p`, while `t` is inside the window: it has not started, it
    has loaded `head`, or nothing makes it return `Extrapolation`. -/
def SampleRing.Inside (r : SampleRing F) (low : ℕ) (t : ℤ) (Q : α → Prop) (p : RingProg F α)
    (s : Race F α) : Prop :=
  s.2.1 = p ∨ (∃ h, s.2.1 = afterHead p h ∧ r.Loaded low t h s.1) ∨
    s.2.1.wp RingOp.exec (r.Restamps low) Eq (fun a _ => Q a) s.1

omit [Kernels F] in
theorem mem_of_prefix {pub pub' : List (ℤ × Iso3 F)} {i : ℕ} {P : ℤ × Iso3 F → Prop}
    (hpub : pub <+: pub') (hs : ∃ s ∈ pub[i]?, P s) : ∃ s ∈ pub'[i]?, P s := by
  obtain ⟨s, hget, hP⟩ := hs
  obtain ⟨hlt, rfl⟩ := List.getElem?_eq_some_iff.mp hget
  exact ⟨_, List.prefix_iff_getElem?.mp hpub i hlt, hP⟩

omit [Kernels F] in
theorem SampleRing.Loaded.restamps (hl : r.Loaded low t h m) (hm : r.Stamped low m)
    (he : r.Restamps low m m') : r.Loaded low t h m' where
  pos := hl.pos
  low_le := hl.low_le
  oldest := mem_of_prefix (he hm).2 hl.oldest
  newest := mem_of_prefix (he hm).2 hl.newest

omit [Kernels F] in
/-- The load of `head`, with `t` inside the window. -/
theorem SampleRing.Stamped.loaded (hp : r.PowerOfTwo) (hm : r.Stamped low m)
    (ht : ¬ r.Outside t m) (h0 : (m r.edge).head ≠ 0) : r.Loaded low t (m r.edge).head m := by
  have hlen := hm.head
  have hret := SampleRing.retained_pos hp
  obtain ⟨hold, hnew⟩ := not_or.mp ht
  refine ⟨by omega, hm.low_le, ?_, ?_⟩
  · have hlt : (m r.edge).head - min (m r.edge).head r.retained <
        (m r.edge).published.length := by omega
    refine ⟨_, List.getElem?_eq_getElem hlt, ?_⟩
    by_contra hgt
    exact hold ⟨_, List.getElem?_eq_getElem hlt, not_le.mp hgt⟩
  · have hlt : (m r.edge).head - 1 < (m r.edge).published.length := by omega
    refine ⟨_, List.getElem?_eq_getElem hlt, ?_⟩
    by_contra hgt
    exact hnew ⟨_, List.getElem?_eq_getElem hlt, not_le.mp hgt⟩

/-- The reader from its load of the newest stamp on, once the oldest one did not put
    `t` before the window. -/
theorem afterOldest_spec {Q : α → Prop} {f : Except LookupError B × ℕ → α}
    (hQ : ∀ out, Prog.onError r.Retries out.1 → Q (f out)) {policy : ExtrapPolicy} {cursor : ℕ}
    {seek : ℕ → ℕ → RingProg F ℕ}
    (hseek : ∀ lo hi, (seek lo hi).Through RingOp.IsLoad fun _ => True)
    (hl : r.Loaded low t h m) (hm : r.Stamped low m) {tOld : ℤ} (hold : tOld ≤ t) :
    RingProg.wpRead (r.Restamps low) ((do
        let tNew ← r.stampAt (h - 1)
        if t < tOld then
          return (.error (.extrapolation r.edge t tOld tNew), cursor)
        else if t > tNew then
          let out ← (r.extrapolated (h - min h r.retained) (h - 1) t tOld tNew policy).run
          return (out.map exact', h - 1)
        else if t = tNew then
          let out ← (r.held (h - 1)).run
          return (out.map exact', h - 1)
        else
          let i ← seek (h - min h r.retained) (h - 1)
          let out ← (r.readBracket exact' between i t).run
          return (out, i)) >>= fun out => pure (f out)) (fun a _ => Q a) m := by
  refine Prog.wp_seq (Prog.wp_seq (r.wpRead_stampAt.mpr fun m' he => ?_))
  obtain ⟨hm', hpub⟩ := he hm
  -- the newest stamp is still a bound for the one published at `h - 1`
  obtain ⟨s, hget, hle⟩ := mem_of_prefix hpub hl.newest
  have hnew := hm'.later _ s hget hl.low_le
  rw [if_neg (not_lt.mpr hold), if_neg (by omega)]
  refine Prog.wp_mono (Q := fun out _ => Prog.onError r.Retries out.1) ?_
    (Prog.wp_through (S := RingOp.IsLoad) (fun o m ho => RingOp.exec_of_isLoad ho m) ?_ m')
  · intro out _ hout
    exact hQ out hout
  · split_ifs
    · refine (held_through (h - 1)).bind fun out hout => ?_
      cases out with
      | ok p => trivial
      | error e => exact hout
    · refine (hseek _ _).bind fun i _ => ?_
      exact (readBracket_through i t).bind fun out hout => hout

/-- **Step lemma.** A race in which `t` stays inside the window and the oldest stamp is
    not misread. -/
theorem inside_step (hp : r.PowerOfTwo) {Q : α → Prop} {f : Except LookupError B × ℕ → α}
    (hQ : ∀ out, Prog.onError r.Retries out.1 → Q (f out)) {policy : ExtrapPolicy} {cursor : ℕ}
    {seek : ℕ → ℕ → RingProg F ℕ}
    (hseek : ∀ lo hi, (seek lo hi).Through RingOp.IsLoad fun _ => True) {p : RingProg F α}
    (hprog : p = r.readWith exact' between seek t policy cursor >>= fun out => pure (f out)) :
    Preserved (parTurn RingOp.exec) (fun s e => r.TrueOldest t p s e ∧ ¬ r.Outside t s.1)
      fun s : Race F α => (r.Stamped low s.1 ∧ s.2.2.wp RingOp.exec Eq (r.Restamps low)
        (fun _ _ => True) s.1) ∧ r.Inside low t Q p s := by
  rintro ⟨m, p', q⟩ turn s' ⟨⟨hm, hq⟩, hin⟩ ⟨htrue, hout⟩ hst
  cases turn with
  | right =>
    obtain ⟨⟨he, hq'⟩, hp'⟩ := parTurn_right (Prog.Next.of_wp rfl hq) hst
    refine ⟨⟨(he hm).1, hq'⟩, ?_⟩
    unfold SampleRing.Inside
    rw [hp']
    rcases hin with hin | ⟨h, hin, hl⟩ | hin
    · exact .inl hin
    · exact .inr (.inl ⟨h, hin, hl.restamps hm he⟩)
    · exact .inr (.inr (Prog.wp_stable (fun _ _ _ he he' => he.trans he') (fun _ _ _ hQ _ => hQ)
        hin he))
  | left =>
    rcases hin with hin | ⟨h, hin, hl⟩ | hin
    · -- the load of `head`
      have hnext : Prog.Next RingOp.exec (fun m1 p1 => m1 = m ∧ p1 = afterHead p (m r.edge).head)
          p' m := by
        obtain rfl : p' = p := hin
        subst hprog
        exact ⟨rfl, rfl⟩
      obtain ⟨⟨h1, h2⟩, h3⟩ := parTurn_left hnext hst
      rw [h1, h3]
      refine ⟨⟨hm, hq⟩, ?_⟩
      unfold SampleRing.Inside
      rw [h1, h2]
      by_cases h0 : (m r.edge).head = 0
      · refine .inr (.inr ?_)
        rw [h0, hprog]
        exact hQ _ (.inl rfl)
      · exact .inr (.inl ⟨_, rfl, hm.loaded hp hout h0⟩)
    · -- the load of the oldest stamp
      have hle : r.stampOf m (h - min h r.retained) ≤ t := by
        by_contra hlt
        exact htrue rfl h hin ⟨hl.oldest, not_le.mp hlt⟩
      have hnext : Prog.Next RingOp.exec (fun m1 p1 => m1 = m ∧
          RingProg.wpRead (r.Restamps low) p1 (fun a _ => Q a) m) p' m := by
        obtain rfl : p' = afterHead p h := hin
        rw [hprog]
        show Prog.Next RingOp.exec _ ((if h = 0 then _ else _) >>= _) m
        rw [if_neg hl.pos.ne']
        exact ⟨rfl, afterOldest_spec hQ hseek hl hm hle⟩
      obtain ⟨⟨h1, h2⟩, h3⟩ := parTurn_left hnext hst
      rw [h1, h3]
      refine ⟨⟨hm, hq⟩, .inr (.inr ?_)⟩
      rw [h1]
      exact h2
    · obtain ⟨⟨h1, h2⟩, h3⟩ := parTurn_left (Prog.Next.of_wp (.refl r low m) hin) hst
      rw [← h1, h3]
      refine ⟨⟨hm, hq⟩, .inr (.inr ?_)⟩
      exact h2

omit [Kernels F] in
/-- Before the call only the writer moves. -/
theorem waiting_step (low : ℕ) (p : RingProg F α) :
    Preserved (parTurn RingOp.exec) (fun _ turn => turn = .right) fun s : Race F α =>
      s.2.1 = p ∧ r.Stamped low s.1 ∧
        s.2.2.wp RingOp.exec Eq (r.Restamps low) (fun _ _ => True) s.1 := by
  rintro ⟨m, p', q⟩ turn s' ⟨rfl, hm, hq⟩ rfl hst
  obtain ⟨⟨he, hq'⟩, hp'⟩ := parTurn_right (Prog.Next.of_wp rfl hq) hst
  exact ⟨hp', (he hm).1, hq'⟩

/-- **Run lemma.** A call that is over satisfies `Q`, when `t` stayed inside the window
    and the oldest stamp was not misread. -/
theorem inside_run (hp : r.PowerOfTwo) {Q : α → Prop} {f : Except LookupError B × ℕ → α}
    (hQ : ∀ out, Prog.onError r.Retries out.1 → Q (f out)) {policy : ExtrapPolicy} {cursor : ℕ}
    {seek : ℕ → ℕ → RingProg F ℕ}
    (hseek : ∀ lo hi, (seek lo hi).Through RingOp.IsLoad fun _ => True) {p : RingProg F α}
    (hprog : p = r.readWith exact' between seek t policy cursor >>= fun out => pure (f out))
    {mᵢ m₀ : RingArena F} (hm : r.Stamped low mᵢ) {samples : List (ℤ × Iso3 F)}
    {q₀ q : RingProg F Unit} {a : α}
    (hstart : Runs (parTurn RingOp.exec) (fun _ turn => turn = .right)
      ((mᵢ, p, r.pushAll samples) : Race F α) (m₀, p, q₀))
    (hrun : Runs (parTurn RingOp.exec) (fun s e => r.TrueOldest t p s e ∧ ¬ r.Outside t s.1)
      ((m₀, p, q₀) : Race F α) (m, .ret a, q)) : Q a := by
  obtain ⟨-, hm₀, hq₀⟩ := hstart.invariant (waiting_step low p)
    ⟨rfl, hm, Prog.wp_mono (fun _ _ _ => trivial) (pushAll_stamped samples hm)⟩
  obtain ⟨-, hin⟩ := hrun.invariant (inside_step hp hQ hseek hprog) ⟨⟨hm₀, hq₀⟩, .inl rfl⟩
  rcases hin with hin | ⟨h, hin, hl⟩ | hin
  · -- a call that has not started has not returned
    have hret : (Prog.ret a : RingProg F α) = p := hin
    rw [hprog] at hret
    cases hret
  · have hret : (Prog.ret a : RingProg F α) = afterHead p h := hin
    rw [hprog] at hret
    have hcall : Prog.Next RingOp.exec (fun _ _ => False) (Prog.ret a : RingProg F α) m := trivial
    rw [hret] at hcall
    change Prog.Next RingOp.exec _ ((if h = 0 then _ else _) >>= _) m at hcall
    rw [if_neg hl.pos.ne'] at hcall
    exact hcall.elim
  · exact hin

omit [Kernels F] in
theorem SampleRing.Truthful.of_inside {moments : List (RingArena F)} {out : Except LookupError B}
    (hin : (∀ m ∈ moments, ¬ r.Outside t m) → Prog.onError r.Retries out) :
    r.Truthful t moments out where
  extrapolation := by
    rintro edge requested oldest newest rfl
    by_contra hnone
    have hretry := hin fun m hm hout => hnone ⟨m, hm, hout⟩
    rcases hretry with he | he | he
    · cases he
    · cases he
    · cases he
  inside := hin

/-- The outcome of a call, over the states of its path. -/
theorem readWith_truthful (hp : r.PowerOfTwo) {f : Except LookupError B × ℕ → α}
    {g : α → Except LookupError B} (hfg : ∀ out, g (f out) = out.1) {policy : ExtrapPolicy}
    {cursor : ℕ} {seek : ℕ → ℕ → RingProg F ℕ}
    (hseek : ∀ lo hi, (seek lo hi).Through RingOp.IsLoad fun _ => True) {p : RingProg F α}
    (hprog : p = r.readWith exact' between seek t policy cursor >>= fun out => pure (f out))
    {mᵢ m₀ : RingArena F} (hm : r.Stamped low mᵢ) {samples : List (ℤ × Iso3 F)}
    {q₀ q : RingProg F Unit} {a : α} {ss : List (Race F α)}
    (hstart : Runs (parTurn RingOp.exec) (fun _ turn => turn = .right)
      ((mᵢ, p, r.pushAll samples) : Race F α) (m₀, p, q₀))
    (hpath : Path (parTurn RingOp.exec) (r.TrueOldest t p) ((m₀, p, q₀) : Race F α) ss
      (m, .ret a, q)) : r.Truthful t (ss.map Prod.fst) (g a) := by
  refine .of_inside fun hin => ?_
  have hstates : ∀ s ∈ ss, ¬ r.Outside t s.1 := by
    intro s hs
    exact hin _ (List.mem_map_of_mem hs)
  refine inside_run hp (Q := fun a => Prog.onError r.Retries (g a)) ?_ hseek hprog hm hstart
    (hpath.runs hstates)
  intro out hout
  rw [hfg]
  exact hout

/-- **Main theorem.** One writer pushes any samples to a ring that pushes left, and at
    any moment a call of `sample` or `read_from` starts. If the call does not load the
    oldest stamp of its window from a slot reused for a sample after `t`, it returns
    `Extrapolation` only if `t` was outside the window at some moment of the call. -/
theorem extrapolation_truthful (hp : r.PowerOfTwo) {mᵢ m₀ : RingArena F}
    (hm : r.Stamped ((mᵢ r.edge).head - 1) mᵢ) (samples : List (ℤ × Iso3 F))
    (q₀ q : RingProg F Unit) (policy : ExtrapPolicy) :
    (∀ interp ss out,
      Runs (parTurn RingOp.exec) (fun _ turn => turn = .right)
        (mᵢ, r.sample interp t policy, r.pushAll samples) (m₀, r.sample interp t policy, q₀) →
      Path (parTurn RingOp.exec) (r.TrueOldest t (r.sample interp t policy))
        (m₀, r.sample interp t policy, q₀) ss (m, .ret out, q) →
      r.Truthful t (ss.map Prod.fst) out) ∧
    ∀ (exact' : Iso3 F → B) (between : Iso3 F → Iso3 F → F → B) cursor ss out,
      Runs (parTurn RingOp.exec) (fun _ turn => turn = .right)
        (mᵢ, r.readFrom exact' between t policy cursor, r.pushAll samples)
        (m₀, r.readFrom exact' between t policy cursor, q₀) →
      Path (parTurn RingOp.exec) (r.TrueOldest t (r.readFrom exact' between t policy cursor))
        (m₀, r.readFrom exact' between t policy cursor, q₀) ss (m, .ret out, q) →
      r.Truthful t (ss.map Prod.fst) out.1 := by
  constructor
  · intro interp ss out hstart hpath
    exact readWith_truthful hp (g := id) (fun _ => rfl)
      (fun lo hi => (bracket_through lo hi t).mono fun _ _ => trivial) rfl
      hm hstart hpath
  · intro exact' between cursor ss out hstart hpath
    exact readWith_truthful hp (g := Prod.fst) (f := id) (fun _ => rfl)
      (fun lo hi => (bracketFrom_through lo hi t cursor).mono fun _ _ => trivial)
      (Prog.bind_ret _).symm hm hstart hpath

end Reader

/-! ## Two races -/

/-- The schedule in which the writer alone moves, until it returns. -/
theorem runs_right {α β : Type} {p : RingProg F α} {q : RingProg F β} {m m' : RingArena F} {b : β}
    (h : q.run RingOp.exec m = some (b, m')) :
    Runs (parTurn RingOp.exec) (fun _ turn => turn = .right) (m, p, q) (m', p, .ret b) := by
  induction q generalizing m with
  | ret a =>
    cases h
    exact .refl
  | abort => cases h
  | call o k ih => exact Runs.trans (Runs.refl.step (e := .right) rfl rfl) (ih _ h)

/-- No stamp of a ring that has not wrapped is misread. -/
theorem SampleRing.Ok.not_misread {r : SampleRing F} {m : RingArena F} (hok : r.Ok m)
    (hfew : (m r.edge).head < r.capacity) (t : ℤ) (h : ℕ) : ¬ r.Misread t h m := by
  rintro ⟨⟨s, hget, hle⟩, hlt⟩
  have hst := (hok.stored _ s hget (by omega)).stamp
  omega

/-- A call past the newest stamp, after the writer has returned. -/
theorem extrapolation_truthful_past : (⟨0, 4⟩ : SampleRing ℚ).Truthful 99
    [lineArena, lineArena, lineArena, lineArena]
    (.error (.extrapolation 0 99 10 20) : Except LookupError (Iso3 ℚ)) := by
  have hw : ((⟨0, 4⟩ : SampleRing ℚ).pushAll linePoses).run RingOp.exec emptyArena =
      some ((), lineArena) := rfl
  have hspec := pushAll_spec (r := (⟨0, 4⟩ : SampleRing ℚ)) (m := emptyArena) ⟨2, rfl⟩ (by decide)
    linePoses (.of_empty rfl rfl)
  have hok := Prog.wp_run hspec hw
  have htrue : ∀ (p : RingProg ℚ (Except LookupError (Iso3 ℚ))) p' q',
      (⟨0, 4⟩ : SampleRing ℚ).TrueOldest 99 p (lineArena, p', q') .left :=
    fun _ _ _ _ h _ => hok.not_misread (by decide) 99 h
  refine (extrapolation_truthful (B := Iso3 ℚ) (r := ⟨0, 4⟩) (m := lineArena) ⟨2, rfl⟩
    (.of_empty rfl rfl) linePoses (.ret ()) (.ret ()) .error).1 Kernels.scLerp _ _
    (runs_right hw) (.step (e := .left) (.step (e := .left) (.step (e := .left) .refl
      (htrue _ _ _) rfl) (htrue _ _ _) rfl) (htrue _ _ _) rfl)

/-- Three samples in a ring of four slots. -/
def fullArena : RingArena ℚ :=
  ((⟨0, 4⟩ : SampleRing ℚ).pushAll [(10, ⟨⟨1, 0, 0, 0⟩, ⟨1, 0, 0⟩⟩),
    (20, ⟨⟨1, 0, 0, 0⟩, ⟨2, 0, 0⟩⟩), (30, ⟨⟨1, 0, 0, 0⟩, ⟨3, 0, 0⟩⟩)]).runFor
    RingOp.exec 100 emptyArena

/-- The writer pushes two more samples, while `sample` is called at the stamp `20`. -/
def lapStart : Race ℚ (Except LookupError (Iso3 ℚ)) :=
  (fullArena, (⟨0, 4⟩ : SampleRing ℚ).sample Kernels.scLerp 20 .error,
    (⟨0, 4⟩ : SampleRing ℚ).pushAll [(40, ⟨⟨1, 0, 0, 0⟩, ⟨4, 0, 0⟩⟩),
      (50, ⟨⟨1, 0, 0, 0⟩, ⟨5, 0, 0⟩⟩)])

/-- The reader loads `head`; one push completes and the next one stores its stamp;
    the reader goes on. -/
def lapTurns : List Turn :=
  .left :: (List.replicate 20 Turn.right ++ [.left, .left])

/-- `20` is inside the window all the time, and `Extrapolation` is returned. -/
theorem extrapolation_misread : ∃ m q,
    Path (parTurn RingOp.exec) anyStep lapStart (visit (parTurn RingOp.exec) lapStart lapTurns)
      (m, .ret (.error (.extrapolation 0 20 50 30)), q) ∧
    ∀ s ∈ visit (parTurn RingOp.exec) lapStart lapTurns,
      ¬ (⟨0, 4⟩ : SampleRing ℚ).Outside 20 s.1 := by
  refine ⟨_, _, path_of_execAll rfl, ?_⟩
  decide

end TfTree
