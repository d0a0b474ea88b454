import TfTree.Ring.Sample

/-!
# The writer's invariant

What every store of `SampleRing::push` preserves, and what histories of pushes
leave behind when the writer may die after any store and another one continues.

Results:
* `SampleRing.Ok.of_sameBut`: stores to the slot of `head` touch no sample of the
  window.
* `push_spec`: every store keeps the invariant; a push that returns `Ok` publishes
  its sample, one that fails changes nothing.
* `SampleRing.Ok.readable`: what pushes leave is readable from any cursor.
* `ok_history`, `window_after_deaths`: the invariant, and what it means for the
  window, after any history of completed and cut pushes.
-/

namespace TfTree

open Conc

variable {F : Type}

/-! ## The invariant -/

/-- The slot of the logical index `i` holds the sample `s`, with an even sequence
    word. -/
structure SampleRing.Holds (r : SampleRing F) (m : RingArena F) (i : ℕ) (s : ℤ × Iso3 F) :
    Prop where
  stamp : r.stampOf m i = s.1
  data : (m r.edge).data (r.slot i) = s.2.toBits
  stable : (m r.edge).seq (r.slot i) &&& 1#32 = 0#32

/-- `head` counts the published samples, their stamps do not decrease, and all but
    the one a capacity back are in their slots. -/
structure SampleRing.Ok (r : SampleRing F) (m : RingArena F) : Prop where
  head : (m r.edge).head = (m r.edge).published.length
  sorted : (m r.edge).published.Pairwise fun a b => a.1 ≤ b.1
  stored : ∀ i s, (m r.edge).published[i]? = some s → (m r.edge).head < i + r.capacity →
    r.Holds m i s

/-- `m'` differs from `m` in the slot `idx` of the ring at most. -/
structure SampleRing.SameBut (r : SampleRing F) (idx : ℕ) (m m' : RingArena F) : Prop where
  head : (m' r.edge).head = (m r.edge).head
  published : (m' r.edge).published = (m r.edge).published
  stamps : ∀ j, j ≠ idx → (m' r.edge).stamps j = (m r.edge).stamps j
  seq : ∀ j, j ≠ idx → (m' r.edge).seq j = (m r.edge).seq j
  data : ∀ j, j ≠ idx → (m' r.edge).data j = (m r.edge).data j

/-- `G` admits the steps of a push of `s` that starts in `m₀`: those that touch
    the slot of `head`, and the one that publishes `s`. -/
structure SampleRing.Admits (r : SampleRing F) (G : RingArena F → RingArena F → Prop)
    (m₀ : RingArena F) (s : ℤ × Iso3 F) : Prop where
  same : ∀ m m', r.Ok m → r.Ok m' → r.SameBut (r.slot (m₀ r.edge).head) m m' → G m m'
  publish : ∀ m m', r.Ok m → r.Ok m' → (m r.edge).published = (m₀ r.edge).published →
    (m' r.edge).published = (m₀ r.edge).published ++ [s] → G m m'

/-- What a reader may assume of a step of the writer: the invariant stays, samples
    are only appended. -/
def SampleRing.Evolves (r : SampleRing F) (m m' : RingArena F) : Prop :=
  r.Ok m → r.Ok m' ∧ (m r.edge).published <+: (m' r.edge).published

/-- A state of a push of `s` that started in `m₀`. -/
def SampleRing.Pushing (r : SampleRing F) (m₀ : RingArena F) (s : ℤ × Iso3 F)
    (m : RingArena F) : Prop :=
  r.Ok m ∧ (r.SameBut (r.slot (m₀ r.edge).head) m₀ m ∨
    (m r.edge).published = (m₀ r.edge).published ++ [s])

section Invariant

variable {r : SampleRing F} {m m' m'' : RingArena F} {idx : ℕ}

theorem SampleRing.Evolves.refl (r : SampleRing F) (m : RingArena F) : r.Evolves m m :=
  fun h => ⟨h, List.prefix_rfl⟩

theorem SampleRing.Evolves.trans (h : r.Evolves m m') (h' : r.Evolves m' m'') :
    r.Evolves m m'' := by
  intro hok
  obtain ⟨hok', hp⟩ := h hok
  obtain ⟨hok'', hp'⟩ := h' hok'
  exact ⟨hok'', hp.trans hp'⟩

theorem SampleRing.SameBut.refl (r : SampleRing F) (idx : ℕ) (m : RingArena F) :
    r.SameBut idx m m :=
  ⟨rfl, rfl, fun _ _ => rfl, fun _ _ => rfl, fun _ _ => rfl⟩

theorem SampleRing.SameBut.trans (h : r.SameBut idx m m') (h' : r.SameBut idx m' m'') :
    r.SameBut idx m m'' where
  head := h'.head.trans h.head
  published := h'.published.trans h.published
  stamps := fun j hj => (h'.stamps j hj).trans (h.stamps j hj)
  seq := fun j hj => (h'.seq j hj).trans (h.seq j hj)
  data := fun j hj => (h'.data j hj).trans (h.data j hj)

theorem SampleRing.admits_evolves (m₀ : RingArena F) (s : ℤ × Iso3 F) :
    r.Admits r.Evolves m₀ s where
  same := fun _ _ _ hok' hs _ => ⟨hok', by rw [hs.published]⟩
  publish := fun _ _ _ hok' hp hp' _ => ⟨hok', by rw [hp', hp]; exact List.prefix_append _ _⟩

theorem SampleRing.admits_pushing (m₀ : RingArena F) (s : ℤ × Iso3 F) :
    r.Admits (fun m m' => r.Pushing m₀ s m → r.Pushing m₀ s m') m₀ s where
  same := fun _ _ _ hok' hs h => ⟨hok', h.2.imp (fun h => h.trans hs) fun h => by
    rw [hs.published, h]⟩
  publish := fun _ _ _ hok' _ hp' _ => ⟨hok', .inr hp'⟩

theorem SampleRing.SameBut.holds {i : ℕ} {s : ℤ × Iso3 F} (h : r.SameBut idx m m')
    (hi : r.slot i ≠ idx) (hs : r.Holds m i s) : r.Holds m' i s where
  stamp := (h.stamps _ hi).trans hs.stamp
  data := (h.data _ hi).trans hs.data
  stable := by rw [h.seq _ hi]; exact hs.stable

/-- The slot of `head` holds no sample of the window: stores to it keep the
    invariant. -/
theorem SampleRing.Ok.of_sameBut (hok : r.Ok m) (hp : r.PowerOfTwo)
    (h : r.SameBut (r.slot (m r.edge).head) m m') : r.Ok m' where
  head := by rw [h.head, h.published, hok.head]
  sorted := by rw [h.published]; exact hok.sorted
  stored := by
    intro i s hs hi
    rw [h.published] at hs
    rw [h.head] at hi
    have hlt : i < (m r.edge).head := by
      rw [hok.head]
      exact (List.getElem?_eq_some_iff.mp hs).1
    exact h.holds (SampleRing.slot_inj hp hlt hi) (hok.stored i s hs hi)

/-! ## The stores of a push -/

theorem sameBut_storeSeq (m : RingArena F) (idx : ℕ) (v : BitVec 32) :
    r.SameBut idx m (RingOp.exec (.storeSeq r.edge idx v) m).2 := by
  constructor <;> simp +contextual [RingOp.exec, upd_apply]

theorem sameBut_storeStamp (m : RingArena F) (idx : ℕ) (v : ℤ) :
    r.SameBut idx m (RingOp.exec (.storeStamp r.edge idx v) m).2 := by
  constructor <;> simp +contextual [RingOp.exec, upd_apply]

theorem sameBut_storeData (m : RingArena F) (idx : ℕ) (i : Fin 7) (w : F) :
    r.SameBut idx m (RingOp.exec (.storeData r.edge idx i w) m).2 := by
  constructor <;> simp +contextual [RingOp.exec, upd_apply]

theorem sameBut_storeHeartbeat (m : RingArena F) (idx v : ℕ) :
    r.SameBut idx m (RingOp.exec (.storeHeartbeat r.edge v) m).2 := by
  constructor <;> simp [RingOp.exec]

section Push

variable {G : RingArena F → RingArena F → Prop} {m₀ : RingArena F} {s : ℤ × Iso3 F}

/-- A step of the writer on the slot of `head`. -/
theorem SampleRing.Admits.step (hG : r.Admits G m₀ s) (hp : r.PowerOfTwo) (hok : r.Ok m₀)
    (h : r.SameBut (r.slot (m₀ r.edge).head) m₀ m)
    (hst : r.SameBut (r.slot (m₀ r.edge).head) m m') : G m m' :=
  hG.same m m' (hok.of_sameBut hp h) (hok.of_sameBut hp (h.trans hst)) hst

/-- The payload loop of `push`. -/
theorem storeWords_spec (hG : r.Admits G m₀ s) (hp : r.PowerOfTwo) (hok : r.Ok m₀)
    {bits : Fin 7 → F} (hidx : idx = r.slot (m₀ r.edge).head) (is : List (Fin 7))
    (h : r.SameBut idx m₀ m) :
    (r.storeWords idx bits is).wp RingOp.exec Eq G (fun _ m' => r.SameBut idx m₀ m' ∧
      (m' r.edge).stamps = (m r.edge).stamps ∧
      ∀ i, (m' r.edge).data idx i = if i ∈ is then bits i else (m r.edge).data idx i) m := by
  subst hidx
  induction is generalizing m with
  | nil => exact ⟨h, rfl, fun i => by simp⟩
  | cons i is ih =>
    have hst := sameBut_storeData (r := r) m (r.slot (m₀ r.edge).head) i (bits i)
    refine Prog.wp_seq (Prog.wp_op_eq (hG.step hp hok h hst) ?_)
    refine Prog.wp_mono ?_ (ih (h.trans hst))
    rintro - m' ⟨h1, h2, h3⟩
    refine ⟨h1, h2.trans ?_, fun j => ?_⟩
    · simp [RingOp.exec]
    · rw [h3 j]
      by_cases hj : j = i
      · subst hj
        simp [RingOp.exec]
      · simp [RingOp.exec, hj, upd_apply]

end Push

/-- The sequence word a push leaves is even, whatever it found. -/
theorem seq_even (seq : BitVec 32) : ((seq ||| 1#32) + 1#32) &&& 1#32 = 0#32 := by
  apply BitVec.eq_of_toNat_eq
  simp only [BitVec.toNat_and, BitVec.toNat_add, BitVec.toNat_or, BitVec.toNat_ofNat]
  have h : (seq.toNat ||| 1) % 2 = 1 := by simp
  rw [show (1 : ℕ) % 2 ^ 32 = 1 from rfl, show (0 : ℕ) % 2 ^ 32 = 0 from rfl, Nat.and_one_is_mod]
  omega

/-- The `head` store: it publishes a filled slot. -/
theorem SampleRing.Ok.publish (hok : r.Ok m) {s : ℤ × Iso3 F}
    (hs : r.Holds m (m r.edge).head s) (hmono : ∀ a ∈ (m r.edge).published, a.1 ≤ s.1) :
    r.Ok (RingOp.exec (.storeHead r.edge ((m r.edge).head + 1) s) m).2 := by
  have hlen := hok.head
  constructor
  · simp [RingOp.exec, hlen]
  · simp only [RingOp.exec, upd_self, List.pairwise_append]
    exact ⟨hok.sorted, List.pairwise_singleton _ _, fun a ha b hb => by
      obtain rfl := List.mem_singleton.mp hb
      exact hmono a ha⟩
  · intro i a ha hi
    simp only [RingOp.exec, upd_self] at ha hi
    have hholds : r.Holds m i a := by
      rcases Nat.lt_or_ge i (m r.edge).published.length with hlt | hge
      · rw [List.getElem?_append_left hlt] at ha
        exact hok.stored i a ha (by omega)
      · obtain ⟨hlt, -⟩ := List.getElem?_eq_some_iff.mp ha
        rw [List.length_append, List.length_singleton] at hlt
        obtain rfl : i = (m r.edge).head := by omega
        rw [hlen, List.getElem?_concat_length] at ha
        obtain rfl := Option.some_inj.mp ha
        exact hs
    exact ⟨by simpa [RingOp.exec, SampleRing.stampOf] using hholds.stamp,
      by simpa [RingOp.exec] using hholds.data, by simpa [RingOp.exec] using hholds.stable⟩

section Push

variable {G : RingArena F → RingArena F → Prop} {stamp : ℤ} {iso : Iso3 F}

/-- The stores of a push on the slot of `head`: the sample is published in the end. -/
theorem pushSlot_spec (hG : r.Admits G m (stamp, iso)) (hp : r.PowerOfTwo) (hok : r.Ok m)
    (hmono : ∀ a ∈ (m r.edge).published, a.1 ≤ stamp) :
    (r.pushSlot (m r.edge).head stamp iso).wp RingOp.exec Eq G (fun _ m' => r.Ok m' ∧
      (m' r.edge).published = (m r.edge).published ++ [(stamp, iso)] ∧
      r.Holds m' (m r.edge).head (stamp, iso)) m := by
  unfold SampleRing.pushSlot
  refine Prog.wp_seq (wp_load (o := .loadSeq r.edge (r.slot (m r.edge).head)) trivial
    (hG.same m m hok hok (.refl r _ m)) ?_)
  dsimp only
  -- the slot goes odd
  generalize hodd : (RingOp.exec (.loadSeq r.edge (r.slot (m r.edge).head)) m).1 ||| 1#32 = odd
  have h1 := sameBut_storeSeq (r := r) m (r.slot (m r.edge).head) odd
  refine Prog.wp_seq (Prog.wp_op_eq (hG.step hp hok (.refl r _ m) h1) ?_)
  generalize (RingOp.exec (.storeSeq r.edge (r.slot (m r.edge).head) odd) m).2 = m1 at h1 ⊢
  -- the stamp, then the payload
  have h2 := sameBut_storeStamp (r := r) m1 (r.slot (m r.edge).head) stamp
  refine Prog.wp_seq (Prog.wp_op_eq (hG.step hp hok h1 h2) ?_)
  have hstamp : ((RingOp.exec (.storeStamp r.edge (r.slot (m r.edge).head) stamp) m1).2
      r.edge).stamps (r.slot (m r.edge).head) = stamp := by simp [RingOp.exec]
  generalize (RingOp.exec (.storeStamp r.edge (r.slot (m r.edge).head) stamp) m1).2 = m2
    at h2 hstamp ⊢
  refine Prog.wp_seq (Prog.wp_mono ?_ (storeWords_spec hG hp hok rfl _ (h1.trans h2)))
  rintro - m3 ⟨h3, hstamps, hdata⟩
  -- the slot goes even
  have h4 := sameBut_storeSeq (r := r) m3 (r.slot (m r.edge).head) (odd + 1#32)
  refine Prog.wp_seq (Prog.wp_op_eq (hG.step hp hok h3 h4) ?_)
  have hholds : r.Holds (RingOp.exec (.storeSeq r.edge (r.slot (m r.edge).head)
      (odd + 1#32)) m3).2 (m r.edge).head (stamp, iso) := by
    constructor
    · simp [RingOp.exec, SampleRing.stampOf, hstamps, hstamp]
    · funext i
      simp [RingOp.exec, hdata]
    · rw [← hodd]
      simp only [RingOp.exec, upd_self]
      exact seq_even _
  have h04 := h3.trans h4
  generalize (RingOp.exec (.storeSeq r.edge (r.slot (m r.edge).head) (odd + 1#32)) m3).2 = m4
    at h04 hholds ⊢
  -- `head` publishes it
  have hok4 := hok.of_sameBut hp h04
  have hpub4 := h04.published
  rw [← h04.head] at hholds ⊢
  have hok5 := hok4.publish hholds (by rw [hpub4]; exact hmono)
  have hpub5 : ((RingOp.exec (.storeHead r.edge ((m4 r.edge).head + 1) (stamp, iso)) m4).2
      r.edge).published = (m r.edge).published ++ [(stamp, iso)] := by simp [RingOp.exec, hpub4]
  have hholds5 : r.Holds (RingOp.exec (.storeHead r.edge ((m4 r.edge).head + 1)
      (stamp, iso)) m4).2 (m4 r.edge).head (stamp, iso) :=
    ⟨by simpa [RingOp.exec, SampleRing.stampOf] using hholds.stamp,
      by simpa [RingOp.exec] using hholds.data, by simpa [RingOp.exec] using hholds.stable⟩
  refine Prog.wp_seq (Prog.wp_op_eq (hG.publish _ _ hok4 hok5 hpub4 hpub5) ?_)
  generalize (RingOp.exec (.storeHead r.edge ((m4 r.edge).head + 1) (stamp, iso)) m4).2 = m5
    at hok5 hpub5 hholds5 ⊢
  have h6 := fun idx => sameBut_storeHeartbeat (r := r) m5 idx ((m4 r.edge).head + 1)
  have hok6 := hok5.of_sameBut hp (h6 _)
  refine Prog.wp_op_eq (hG.same _ _ hok5 hok6 (h6 _)) ⟨hok6, ?_, ?_⟩
  · rw [(h6 0).published, hpub5]
  · exact (h6 (r.slot (m4 r.edge).head + 1)).holds (by omega) hholds5

/-- The stamp check of `push` reads the newest published stamp. -/
theorem SampleRing.Ok.newest (hok : r.Ok m) (hc : 2 ≤ r.capacity) (h0 : 0 < (m r.edge).head) :
    ∃ iso, (m r.edge).published[(m r.edge).head - 1]? =
      some (r.stampOf m ((m r.edge).head - 1), iso) ∧
      ∀ a ∈ (m r.edge).published, a.1 ≤ r.stampOf m ((m r.edge).head - 1) := by
  have hlen := hok.head
  have hlt : (m r.edge).head - 1 < (m r.edge).published.length := by omega
  have hget := List.getElem?_eq_getElem hlt
  have hstamp := (hok.stored _ _ hget (by omega)).stamp
  refine ⟨((m r.edge).published[(m r.edge).head - 1]).2, by rw [hstamp, hget], fun a ha => ?_⟩
  obtain ⟨j, hj, rfl⟩ := List.getElem_of_mem ha
  rw [hstamp]
  rcases Nat.lt_or_ge j ((m r.edge).head - 1) with hlt' | hge
  · exact List.pairwise_iff_getElem.mp hok.sorted j _ hj hlt hlt'
  · obtain rfl : j = (m r.edge).head - 1 := by omega
    exact le_rfl

/-- A push: `G` admits every access; on `Ok` the sample is published and in its
    slot, on an error nothing changed and the stamp was older than a published one. -/
theorem push_spec (hG : r.Admits G m (stamp, iso)) (hp : r.PowerOfTwo) (hc : 2 ≤ r.capacity)
    (hok : r.Ok m) : (r.push stamp iso).wp RingOp.exec Eq G (fun res m' =>
      match res with
      | .ok () => r.Ok m' ∧ (m' r.edge).published = (m r.edge).published ++ [(stamp, iso)] ∧
          r.Holds m' (m r.edge).head (stamp, iso)
      | .error _ => m' = m ∧ ∃ a ∈ (m r.edge).published, stamp < a.1) m := by
  have hrefl := hG.same m m hok hok (.refl r _ m)
  unfold SampleRing.push
  refine Prog.wp_seq (wp_load (o := .loadHead r.edge) trivial hrefl ?_)
  change Prog.wp _ _ _ (if (m r.edge).head > 0 then _ else _) _ _
  split_ifs with h0
  · obtain ⟨iso', hget, hmax⟩ := hok.newest hc h0
    refine Prog.wp_seq (wp_load (o := .loadStamp r.edge (r.slot ((m r.edge).head - 1))) trivial
      hrefl ?_)
    change Prog.wp _ _ _ (if stamp < r.stampOf m ((m r.edge).head - 1) then _ else _) _ _
    split_ifs with hlt
    · exact ⟨rfl, _, List.mem_of_getElem? hget, hlt⟩
    · refine Prog.wp_seq (Prog.wp_mono (fun _ m' h => h) (pushSlot_spec hG hp hok fun a ha => ?_))
      exact (hmax a ha).trans (by omega)
  · refine Prog.wp_seq (Prog.wp_mono (fun _ m' h => h) (pushSlot_spec hG hp hok fun a ha => ?_))
    have hnil : (m r.edge).published = [] := by
      have hlen := hok.head
      exact List.eq_nil_of_length_eq_zero (by omega)
    rw [hnil] at ha
    cases ha

end Push

/-! ## Histories of completed and cut pushes -/

theorem storeWords_noAbort (bits : Fin 7 → F) (is : List (Fin 7)) :
    (r.storeWords idx bits is).NoAbort := by
  induction is with
  | nil => trivial
  | cons i is ih => exact (Prog.NoAbort.op _).bind fun _ => ih

theorem pushSlot_noAbort (h : ℕ) (stamp : ℤ) (iso : Iso3 F) :
    (r.pushSlot h stamp iso).NoAbort := by
  refine (Prog.NoAbort.op _).bind fun seq => ?_
  refine (Prog.NoAbort.op _).bind fun _ => (Prog.NoAbort.op _).bind fun _ => ?_
  refine (storeWords_noAbort _ _).bind fun _ => (Prog.NoAbort.op _).bind fun _ => ?_
  exact (Prog.NoAbort.op _).bind fun _ => Prog.NoAbort.op _

theorem push_noAbort (stamp : ℤ) (iso : Iso3 F) : (r.push stamp iso).NoAbort := by
  refine (Prog.NoAbort.op _).bind fun h => ?_
  split_ifs
  · refine (Prog.NoAbort.op _).bind fun last => ?_
    split_ifs
    · trivial
    · exact (pushSlot_noAbort _ _ _).bind fun _ => trivial
  · exact (pushSlot_noAbort _ _ _).bind fun _ => trivial

end Invariant

/-- One push of a history: the writer dies after `accesses` atomic accesses, or
    returns before that. -/
structure PushEvent (F : Type) where
  stamp : ℤ
  iso : Iso3 F
  accesses : ℕ

/-- The memory a history of pushes leaves; each writer continues on the ring its
    predecessor left. -/
def SampleRing.history (r : SampleRing F) (m : RingArena F) (events : List (PushEvent F)) :
    RingArena F :=
  events.foldl (fun m ev => (r.push ev.stamp ev.iso).runFor RingOp.exec ev.accesses m) m

section History

variable {r : SampleRing F} {m : RingArena F}

theorem SampleRing.Ok.of_empty (hhead : (m r.edge).head = 0) (hpub : (m r.edge).published = []) :
    r.Ok m where
  head := by rw [hhead, hpub]; rfl
  sorted := by rw [hpub]; exact List.Pairwise.nil
  stored := by
    intro i s hs
    rw [hpub] at hs
    cases hs

/-- What pushes leave is readable, from any cursor, while `head` has room. -/
theorem SampleRing.Ok.readable (hok : r.Ok m) (hc : 2 ≤ r.capacity)
    (hbound : (m r.edge).head < 2 ^ 63) : r.Readable m where
  capacity := by omega
  bound := hbound
  sorted := by
    intro i j hi hij hj
    have hr := SampleRing.retained_of_two_le hc
    have hlen := hok.head
    unfold SampleRing.lowest at hi
    by_cases h0 : (m r.edge).head = 0
    · obtain rfl : i = j := by omega
      exact le_rfl
    · have hgeti := List.getElem?_eq_getElem (by omega : i < (m r.edge).published.length)
      have hgetj := List.getElem?_eq_getElem (by omega : j < (m r.edge).published.length)
      rw [(hok.stored i _ hgeti (by omega)).stamp, (hok.stored j _ hgetj (by omega)).stamp]
      rcases Nat.eq_or_lt_of_le hij with rfl | hlt
      · exact le_rfl
      · exact List.pairwise_iff_getElem.mp hok.sorted i j _ _ hlt

/-- A cut push publishes its sample, or touches the slot of `head` only. -/
theorem pushing_runFor (hp : r.PowerOfTwo) (hc : 2 ≤ r.capacity) (hok : r.Ok m)
    (ev : PushEvent F) : r.Pushing m (ev.stamp, ev.iso)
      ((r.push ev.stamp ev.iso).runFor RingOp.exec ev.accesses m) := by
  have hspec := push_spec (SampleRing.admits_pushing m (ev.stamp, ev.iso)) hp hc hok
  exact Prog.wp_runFor (fun m m' h hG => hG h) ⟨hok, .inl (.refl r _ m)⟩ hspec ev.accesses

theorem ok_history (hp : r.PowerOfTwo) (hc : 2 ≤ r.capacity) (hok : r.Ok m)
    (events : List (PushEvent F)) : r.Ok (r.history m events) ∧ ∃ reached,
      (r.history m events r.edge).published = (m r.edge).published ++ reached ∧
      reached.Sublist (events.map fun ev => (ev.stamp, ev.iso)) := by
  induction events generalizing m with
  | nil => exact ⟨hok, [], (List.append_nil _).symm, List.Sublist.slnil⟩
  | cons ev events ih =>
    obtain ⟨hok', hpub⟩ := pushing_runFor hp hc hok ev
    obtain ⟨hok'', reached, hreached, hsub⟩ := ih hok'
    refine ⟨hok'', ?_⟩
    rcases hpub with hsame | hpub
    · rw [hsame.published] at hreached
      exact ⟨reached, hreached, hsub.cons _⟩
    · refine ⟨(ev.stamp, ev.iso) :: reached, ?_, hsub.cons_cons _⟩
      rw [hpub, List.append_assoc] at hreached
      exact hreached

variable [Zero F]

theorem SampleRing.Holds.reads {i : ℕ} {s : ℤ × Iso3 F} (h : r.Holds m i s) :
    (r.readSlot (r.slot i)).run.run RingOp.exec m = some (.ok s.2, m) := by
  rw [run_readSlot, if_pos h.stable, h.data, Iso3.fromBits_toBits]

/-- What a reader and the next writer find on a ring no push is in progress on. -/
structure SampleRing.Intact (r : SampleRing F) (m : RingArena F) : Prop where
  counted : (m r.edge).head = (m r.edge).published.length
  size : (m r.edge).head - r.lowest m = min (m r.edge).published.length (r.capacity - 1)
  reads : ∀ i, r.Window (m r.edge).head i → ∃ s, (m r.edge).published[i]? = some s ∧
    r.stampOf m i = s.1 ∧ (r.readSlot (r.slot i)).run.run RingOp.exec m = some (.ok s.2, m)
  abandons : ∀ (ev : PushEvent F) m',
    (r.push ev.stamp ev.iso).runFor RingOp.exec ev.accesses m = m' →
    (m' r.edge).head = (m r.edge).head → r.SameBut (r.slot (m r.edge).head) m m' ∧
      ∀ i, r.Window (m' r.edge).head i → r.slot i ≠ r.slot (m r.edge).head
  resumes : ∀ stamp iso, (∀ a ∈ (m r.edge).published, a.1 ≤ stamp) → ∃ m',
    (r.push stamp iso).run RingOp.exec m = some (.ok (), m') ∧
    (m' r.edge).published = (m r.edge).published ++ [(stamp, iso)] ∧
    (r.readSlot (r.slot (m r.edge).head)).run.run RingOp.exec m' = some (.ok iso, m')

theorem SampleRing.Ok.intact (hok : r.Ok m) (hp : r.PowerOfTwo) (hc : 2 ≤ r.capacity) :
    r.Intact m where
  counted := hok.head
  size := by
    have hr := SampleRing.retained_of_two_le hc
    rw [SampleRing.lowest, hr, ← hok.head]
    omega
  reads := by
    intro i hi
    have hr := SampleRing.retained_of_two_le hc
    obtain ⟨hlt, hle⟩ := SampleRing.window_iff.mp hi
    have hget := List.getElem?_eq_getElem (hok.head ▸ hlt : i < (m r.edge).published.length)
    have hholds := hok.stored i _ hget (by omega)
    exact ⟨_, hget, hholds.stamp, hholds.reads⟩
  abandons := by
    rintro ev m' rfl hhead
    have hr := SampleRing.retained_of_two_le hc
    obtain ⟨hok', hsame | hpub⟩ := pushing_runFor hp hc hok ev
    · refine ⟨hsame, fun i hi => ?_⟩
      obtain ⟨hlt, hle⟩ := SampleRing.window_iff.mp hi
      rw [← hhead]
      exact SampleRing.slot_inj hp hlt (by omega)
    · have hlen := congrArg List.length hpub
      rw [← hok'.head, List.length_append, ← hok.head, List.length_singleton] at hlen
      omega
  resumes := by
    intro stamp iso hmono
    obtain ⟨⟨res, m'⟩, hrun⟩ : ∃ am, (r.push stamp iso).run RingOp.exec m = some am :=
      (push_noAbort stamp iso).run m
    have hspec := Prog.wp_run (push_spec (SampleRing.admits_evolves m (stamp, iso)) hp hc hok) hrun
    cases res with
    | ok u => exact ⟨m', hrun, hspec.2.1, hspec.2.2.reads⟩
    | error e =>
      obtain ⟨-, a, ha, hlt⟩ := hspec
      have hle := hmono a ha
      omega

/-- **Main theorem.** After any history of pushes, each completed or cut after any
    of its accesses, the samples whose `head` store happened are pushes of the
    history in its order, and the ring is intact for them: the window holds the
    newest `min(n, capacity - 1)` of them and every slot of it reads back; a push
    that is cut before its `head` store touches one slot, outside the window; and
    the next push in order succeeds and makes that slot readable. -/
theorem window_after_deaths (hp : r.PowerOfTwo) (hc : 2 ≤ r.capacity)
    (hhead : (m r.edge).head = 0) (hpub : (m r.edge).published = [])
    (events : List (PushEvent F)) :
    (r.history m events r.edge).published.Sublist (events.map fun ev => (ev.stamp, ev.iso)) ∧
      r.Intact (r.history m events) := by
  obtain ⟨hok, reached, hreached, hsub⟩ := ok_history hp hc (.of_empty hhead hpub) events
  rw [hpub, List.nil_append] at hreached
  exact ⟨hreached ▸ hsub, hok.intact hp hc⟩

/-- A fresh arena. -/
def emptyArena : RingArena F := fun _ =>
  { head := 0
    heartbeat := 0
    stamps := fun _ => 0
    seq := fun _ => 0#32
    data := fun _ _ => 0
    published := [] }

/-- Two pushes on a ring of two slots; the second dies after its stamp store. -/
def cutHistory : List (PushEvent ℕ) :=
  [⟨10, ⟨⟨1, 0, 0, 0⟩, ⟨5, 0, 0⟩⟩, 20⟩, ⟨11, ⟨⟨1, 0, 0, 0⟩, ⟨6, 0, 0⟩⟩, 5⟩]

theorem window_after_deaths_cut :
    ((⟨0, 2⟩ : SampleRing ℕ).history emptyArena cutHistory 0).head = 1 ∧
    ((⟨0, 2⟩ : SampleRing ℕ).history emptyArena cutHistory 0).seq 1 = 1#32 ∧
    (⟨0, 2⟩ : SampleRing ℕ).Intact ((⟨0, 2⟩ : SampleRing ℕ).history emptyArena cutHistory) :=
  ⟨by decide, by decide,
    (window_after_deaths (r := ⟨0, 2⟩) ⟨1, rfl⟩ (by decide) rfl rfl cutHistory).2⟩

end History

end TfTree
