import TfTree.Ring.Writer

/-!
# The samples a ring carries

What pushes in order leave for a reader that comes after them, on a ring of any capacity:
`SampleRing::oldest_stamp` and an exact `SampleRing::sample`.

Results:
* `SampleRing.Carries.push`: a push in order returns, and touches no other ring.
* `SampleRing.Newest.pushUntilRefused`: samples in order are all taken.
* `SampleRing.Carries.sample`, `SampleRing.Carries.oldestStamp`: a stamp of the window reads
  back its own pose; the oldest readable stamp is that of the window's first sample.
* `SampleRing.Carries.reads_all_iff`: all stamps can be read, and the first one is the
  oldest, exactly if there are no more than `retained` of them.
-/

namespace TfTree

open Conc

variable {F : Type}

/-! ## Model of `buffer.rs` -/

/-- `SampleRing::oldest_stamp` (lines 167–174). -/
def SampleRing.oldestStamp (r : SampleRing F) : RingProg F (Option ℤ) := do
  let h ← r.loadHead
  if h = 0 then
    return none
  else
    let oldest := h - min h r.retained
    let stamp ← r.stampAt oldest
    return some stamp

/-! ## Accesses of one ring -/

/-- The ring an access belongs to. -/
def RingOp.edge : RingOp F → EdgeId
  | .loadHead e => e
  | .loadStamp e _ => e
  | .loadSeq e _ => e
  | .loadData e _ _ => e
  | .storeSeq e _ _ => e
  | .storeStamp e _ _ => e
  | .storeData e _ _ _ => e
  | .storeHead e _ _ => e
  | .storeHeartbeat e _ => e

theorem RingOp.exec_of_ne (o : RingOp F) (m : RingArena F) {e : EdgeId} (h : e ≠ o.edge) :
    (o.exec m).2 e = m e := by
  cases o <;> first | rfl | exact upd_of_ne _ _ h

/-- The access belongs to the ring of `e`. -/
def RingOp.On (e : EdgeId) (o : RingOp F) : Prop := o.edge = e

section Own

variable {r : SampleRing F}

theorem op_own {o : RingOp F} (h : o.edge = r.edge) :
    (Prog.op o : RingProg F o.Res).Only (RingOp.On r.edge) := Prog.Only.op h

theorem storeWords_own (idx : ℕ) (bits : Fin 7 → F) (is : List (Fin 7)) :
    (r.storeWords idx bits is).Only (RingOp.On r.edge) := by
  induction is with
  | nil => trivial
  | cons i is ih => exact (op_own rfl).bind fun _ => ih

theorem pushSlot_own (h : ℕ) (stamp : ℤ) (iso : Iso3 F) :
    (r.pushSlot h stamp iso).Only (RingOp.On r.edge) := by
  refine (op_own rfl).bind fun seq => (op_own rfl).bind fun _ => (op_own rfl).bind fun _ => ?_
  refine (storeWords_own _ _ _).bind fun _ => (op_own rfl).bind fun _ => ?_
  exact (op_own rfl).bind fun _ => op_own rfl

theorem push_own (stamp : ℤ) (iso : Iso3 F) :
    (r.push stamp iso).Only (RingOp.On r.edge) := by
  refine (op_own rfl).bind fun h => ?_
  split_ifs
  · refine (op_own rfl).bind fun last => ?_
    split_ifs
    · trivial
    · exact (pushSlot_own _ _ _).bind fun _ => trivial
  · exact (pushSlot_own _ _ _).bind fun _ => trivial

/-- A push leaves the other rings of the arena alone. -/
theorem push_run_of_ne {m m' : RingArena F} {stamp : ℤ} {iso : Iso3 F}
    {res : Except PushError Unit} (h : (r.push stamp iso).run RingOp.exec m = some (res, m'))
    {e : EdgeId} (he : e ≠ r.edge) : m' e = m e := by
  refine Prog.wp_run (G := fun _ _ => True) (Q := fun _ m' => m' e = m e) ?_ h
  refine Prog.wp_only (fun o m₁ ho hm₁ => ⟨trivial, ?_⟩) (push_own stamp iso) rfl
  rw [RingOp.exec_of_ne o m₁ (fun h => he (h.trans ho)), hm₁]

end Own

/-! ## Pushes in order -/

/-- The ring has published `zs`, and the samples of its window are in their slots. -/
structure SampleRing.Carries (r : SampleRing F) (m : RingArena F) (zs : List (ℤ × Iso3 F)) :
    Prop where
  ok : r.Ok m
  published : (m r.edge).published = zs
  holds : ∀ i s, zs[i]? = some s → r.Window zs.length i → r.Holds m i s

section Carries

variable {r : SampleRing F} {m : RingArena F} {zs : List (ℤ × Iso3 F)}

theorem SampleRing.Carries.head (h : r.Carries m zs) : (m r.edge).head = zs.length := by
  rw [h.ok.head, h.published]

theorem SampleRing.Carries.of_empty (hhead : (m r.edge).head = 0)
    (hpub : (m r.edge).published = []) : r.Carries m [] where
  ok := .of_empty hhead hpub
  published := hpub
  holds := fun _ _ h => by cases h

/-- The first push does not look at the stamps, so that a ring of one slot takes it. -/
theorem push_spec_first {stamp : ℤ} {iso : Iso3 F} (hp : r.PowerOfTwo) (hok : r.Ok m)
    (h0 : (m r.edge).head = 0) :
    (r.push stamp iso).wp RingOp.exec Eq r.Evolves (fun res m' => res = .ok () ∧ r.Ok m' ∧
      (m' r.edge).published = (m r.edge).published ++ [(stamp, iso)] ∧
      r.Holds m' (m r.edge).head (stamp, iso)) m := by
  have hnil : (m r.edge).published = [] := List.eq_nil_of_length_eq_zero (hok.head ▸ h0)
  unfold SampleRing.push
  refine Prog.wp_seq (wp_load (o := .loadHead r.edge) trivial (.refl r m) ?_)
  change Prog.wp _ _ _ (if (m r.edge).head > 0 then _ else _) _ _
  rw [if_neg (by omega)]
  refine Prog.wp_seq (Prog.wp_mono (fun _ m' h => ⟨rfl, h⟩)
    (pushSlot_spec (SampleRing.admits_evolves m (stamp, iso)) hp hok fun a ha => ?_))
  rw [hnil] at ha
  cases ha

/-- A push in order returns and publishes its sample. A ring of one slot takes one. -/
theorem SampleRing.Carries.push (h : r.Carries m zs) (hp : r.PowerOfTwo)
    (hc : 2 ≤ r.capacity ∨ zs = []) {stamp : ℤ} (iso : Iso3 F) (hmono : ∀ a ∈ zs, a.1 ≤ stamp) :
    ∃ m', (r.push stamp iso).run RingOp.exec m = some (.ok (), m') ∧
      r.Carries m' (zs ++ [(stamp, iso)]) ∧ ∀ e, e ≠ r.edge → m' e = m e := by
  obtain ⟨⟨res, m'⟩, hrun⟩ : ∃ am, (r.push stamp iso).run RingOp.exec m = some am :=
    (push_noAbort stamp iso).run m
  obtain ⟨rfl, hok', hpub', hholds⟩ : res = .ok () ∧ r.Ok m' ∧
      (m' r.edge).published = (m r.edge).published ++ [(stamp, iso)] ∧
      r.Holds m' (m r.edge).head (stamp, iso) := by
    rcases hc with hc | rfl
    · have hspec := Prog.wp_run
        (push_spec (SampleRing.admits_evolves m (stamp, iso)) hp hc h.ok) hrun
      cases res with
      | ok u => exact ⟨rfl, hspec⟩
      | error e =>
        obtain ⟨-, a, ha, hlt⟩ := hspec
        rw [h.published] at ha
        exact absurd (hmono a ha) (by omega)
    · have hspec := Prog.wp_run (push_spec_first hp h.ok h.head) hrun
      exact hspec
  rw [h.published] at hpub'
  refine ⟨m', hrun, ⟨hok', hpub', fun i s hs hw => ?_⟩, fun e he => push_run_of_ne hrun he⟩
  rw [List.length_append, List.length_singleton, SampleRing.window_iff] at hw
  have hhead' : (m' r.edge).head = zs.length + 1 := by
    rw [hok'.head, hpub', List.length_append, List.length_singleton]
  rcases hc with hc | rfl
  · have hret := SampleRing.retained_of_two_le hc
    refine hok'.stored i s (by rw [hpub']; exact hs) ?_
    omega
  · obtain rfl : i = 0 := by
      have hlt := hw.1
      simpa using hlt
    cases hs
    have h0 := h.head
    rw [List.length_nil] at h0
    rw [h0] at hholds
    exact hholds

/-! ## Pushes of any number -/

end Carries

/-- The pushes of a list of samples, up to the first one refused. -/
def SampleRing.pushUntilRefused (r : SampleRing F) : List (ℤ × Iso3 F) →
    RingProg F (Except PushError Unit)
  | [] => pure (.ok ())
  | (stamp, iso) :: zs => do
    match ← r.push stamp iso with
    | .error e => return .error e
    | .ok () => r.pushUntilRefused zs

/-- The ring has published `zs`, and the newest sample is in its slot. A ring of one slot
    holds no more than this. -/
structure SampleRing.Newest (r : SampleRing F) (m : RingArena F) (zs : List (ℤ × Iso3 F)) :
    Prop where
  ok : r.Ok m
  published : (m r.edge).published = zs
  newest : ∀ s, zs.getLast? = some s → r.Holds m (zs.length - 1) s

section Newest

variable {r : SampleRing F} {m : RingArena F} {zs ys : List (ℤ × Iso3 F)}

theorem SampleRing.Newest.of_empty (hhead : (m r.edge).head = 0)
    (hpub : (m r.edge).published = []) : r.Newest m [] where
  ok := .of_empty hhead hpub
  published := hpub
  newest := fun _ h => by cases h

/-- A sample that is not before any other is taken, whatever the capacity. -/
theorem SampleRing.Newest.push (h : r.Newest m zs) (hp : r.PowerOfTwo) {stamp : ℤ} (iso : Iso3 F)
    (hmono : ∀ a ∈ zs, a.1 ≤ stamp) :
    ∃ m', (r.push stamp iso).run RingOp.exec m = some (.ok (), m') ∧
      r.Newest m' (zs ++ [(stamp, iso)]) := by
  have hhead : (m r.edge).head = zs.length := by rw [h.ok.head, h.published]
  obtain ⟨⟨res, m'⟩, hrun⟩ : ∃ am, (r.push stamp iso).run RingOp.exec m = some am :=
    (push_noAbort stamp iso).run m
  have hspec : (r.push stamp iso).wp RingOp.exec Eq r.Evolves (fun res m' => res = .ok () ∧
      r.Ok m' ∧ (m' r.edge).published = (m r.edge).published ++ [(stamp, iso)] ∧
      r.Holds m' (m r.edge).head (stamp, iso)) m := by
    have hslot := pushSlot_spec (SampleRing.admits_evolves m (stamp, iso)) hp h.ok
      (by rw [h.published]; exact hmono)
    unfold SampleRing.push
    refine Prog.wp_seq (wp_load (o := .loadHead r.edge) trivial (.refl r m) ?_)
    change Prog.wp _ _ _ (if (m r.edge).head > 0 then _ else _) _ _
    by_cases h0 : (m r.edge).head > 0
    · -- the stamp of the newest sample
      rw [if_pos h0]
      refine Prog.wp_seq (wp_load (o := .loadStamp r.edge (r.slot ((m r.edge).head - 1))) trivial
        (.refl r m) ?_)
      change Prog.wp _ _ _ (if stamp < r.stampOf m ((m r.edge).head - 1) then _ else _) _ _
      have hne : zs ≠ [] := by
        rintro rfl
        rw [hhead] at h0
        exact absurd h0 (by simp)
      have hlast := h.newest _ (List.getLast?_eq_getLast_of_ne_nil hne)
      have hle : r.stampOf m ((m r.edge).head - 1) ≤ stamp := by
        rw [hhead, hlast.stamp]
        exact hmono _ (List.getLast_mem hne)
      rw [if_neg (not_lt.mpr hle)]
      exact Prog.wp_seq (Prog.wp_mono (fun _ m' h => ⟨rfl, h⟩) hslot)
    · rw [if_neg h0]
      exact Prog.wp_seq (Prog.wp_mono (fun _ m' h => ⟨rfl, h⟩) hslot)
  obtain ⟨rfl, hok', hpub', hholds⟩ := Prog.wp_run hspec hrun
  rw [h.published] at hpub'
  refine ⟨m', hrun, hok', hpub', fun s hs => ?_⟩
  rw [List.getLast?_append, List.getLast?_singleton] at hs
  cases hs
  rw [hhead] at hholds
  simpa using hholds

/-- Samples in order are all taken, whatever the capacity. -/
theorem SampleRing.Newest.pushUntilRefused (h : r.Newest m zs) (hp : r.PowerOfTwo)
    (hsorted : (zs ++ ys).Pairwise fun a b => a.1 ≤ b.1) :
    ∃ m', (r.pushUntilRefused ys).run RingOp.exec m = some (.ok (), m') ∧
      r.Newest m' (zs ++ ys) := by
  induction ys generalizing m zs with
  | nil => exact ⟨m, rfl, by rw [List.append_nil]; exact h⟩
  | cons y ys ih =>
    have hmono : ∀ a ∈ zs, a.1 ≤ y.1 := fun a ha =>
      (List.pairwise_append.mp hsorted).2.2 a ha y List.mem_cons_self
    obtain ⟨m₁, hpush, hnew⟩ := h.push hp y.2 hmono
    rw [List.append_cons] at hsorted
    obtain ⟨m', hrest, hnew'⟩ := ih hnew hsorted
    refine ⟨m', ?_, by rw [List.append_cons]; exact hnew'⟩
    rw [SampleRing.pushUntilRefused, Prog.run_bind, hpush]
    exact hrest

end Newest

section Carries

variable {r : SampleRing F} {m : RingArena F} {zs : List (ℤ × Iso3 F)}

/-! ## The reader behind them -/

/-- The first index of the window. -/
def SampleRing.first (r : SampleRing F) (zs : List (ℤ × Iso3 F)) : ℕ :=
  zs.length - min zs.length r.retained

/-- The stamp of a sample of the window. -/
theorem SampleRing.Carries.stampOf (h : r.Carries m zs) {i : ℕ} (hlo : r.first zs ≤ i)
    (hi : i < zs.length) : r.stampOf m i = zs[i].1 :=
  (h.holds i zs[i] (List.getElem?_eq_getElem hi) ⟨hlo, hi⟩).stamp

theorem SampleRing.first_lt (hp : r.PowerOfTwo) (h0 : zs ≠ []) : r.first zs < zs.length := by
  have hret := SampleRing.retained_pos hp
  have hlen := List.length_pos_iff.mpr h0
  unfold first
  omega

/-- The oldest stamp a reader can reach. -/
theorem SampleRing.Carries.oldestStamp (h : r.Carries m zs) (hp : r.PowerOfTwo) :
    r.oldestStamp.run RingOp.exec m = some ((zs[r.first zs]?).map Prod.fst, m) := by
  unfold SampleRing.oldestStamp
  rw [Prog.run_bind, r.run_loadHead, Option.bind_some]
  dsimp only
  rw [h.head]
  by_cases h0 : zs = []
  · subst h0
    rfl
  · have hlt := SampleRing.first_lt hp h0
    have hlen := List.length_pos_iff.mpr h0
    rw [if_neg (by omega), Prog.run_bind, r.run_stampAt, List.getElem?_eq_getElem hlt]
    show some (some (r.stampOf m (r.first zs)), m) = _
    rw [h.stampOf le_rfl hlt]
    rfl

theorem run_revalidated {α : Type} {i : ℕ} {v : α} (hi : i < (m r.edge).head)
    (hd : (m r.edge).head ≤ i + r.retained) :
    (r.revalidated i v).run.run RingOp.exec m = some (.ok v, m) := by
  unfold SampleRing.revalidated
  rw [Prog.run_bindE, Prog.run_liftE, r.run_loadHead]
  show (liftM (SampleRing.u64Sub (m r.edge).head i) >>= fun d => _ :
    RingM F α).run.run RingOp.exec m = _
  rw [Prog.run_bindE, Prog.run_liftE, SampleRing.run_u64Sub hi.le]
  show (if (m r.edge).head - i > r.retained then _ else _ : RingM F α).run.run RingOp.exec m = _
  rw [if_neg (by omega)]
  rfl

/-- The stamps of the window are in order. -/
theorem SampleRing.Carries.sortedOn (h : r.Carries m zs) (hs : zs.Pairwise fun a b => a.1 < b.1) :
    r.SortedOn m (r.first zs) (zs.length - 1) := by
  intro i j hi hij hj
  rcases Nat.eq_or_lt_of_le hij with rfl | hlt
  · exact le_rfl
  · have hj' : j < zs.length := by omega
    rw [h.stampOf hi (by omega), h.stampOf (by omega) hj']
    exact (List.pairwise_iff_getElem.mp hs i j (by omega) hj' hlt).le

/-- A sample of the window is still there after it is read. -/
theorem SampleRing.Carries.revalidated (h : r.Carries m zs) {α : Type} {v : α} {i : ℕ}
    (hlo : r.first zs ≤ i) (hi : i < zs.length) :
    (r.revalidated i v).run.run RingOp.exec m = some (.ok v, m) := by
  have hwin := SampleRing.window_iff.mp (show r.Window zs.length i from ⟨hlo, hi⟩)
  rw [← h.head] at hwin
  exact run_revalidated hwin.1 hwin.2

variable [Kernels F]

/-- The slot of a sample of the window reads back its pose. -/
theorem SampleRing.Carries.read (h : r.Carries m zs) {i : ℕ} (hlo : r.first zs ≤ i)
    (hi : i < zs.length) :
    (r.readSlot (r.slot i)).run.run RingOp.exec m = some (.ok zs[i].2, m) :=
  (h.holds i zs[i] (List.getElem?_eq_getElem hi) ⟨hlo, hi⟩).reads

/-- The bracket at the stamp of a sample of the window. -/
theorem SampleRing.Carries.readBracket (h : r.Carries m zs)
    (interp : Iso3 F → Iso3 F → F → Iso3 F) {i : ℕ} (hlo : r.first zs ≤ i) (hi : i < zs.length) :
    (r.readBracket id interp i zs[i].1).run.run RingOp.exec m = some (.ok zs[i].2, m) := by
  unfold SampleRing.readBracket
  rw [Prog.run_bindE, Prog.run_liftE, r.run_stampAt, h.stampOf hlo hi]
  show (if zs[i].1 = zs[i].1 then _ else _ : RingM F (Iso3 F)).run.run RingOp.exec m = _
  rw [if_pos rfl, Prog.run_bindE, h.read hlo hi]
  exact h.revalidated hlo hi

/-- A stamp of the window reads back the pose it was pushed with. -/
theorem SampleRing.Carries.sample (h : r.Carries m zs)
    (hs : zs.Pairwise fun a b => a.1 < b.1) (interp : Iso3 F → Iso3 F → F → Iso3 F)
    (policy : ExtrapPolicy) {i : ℕ} (hlo : r.first zs ≤ i) (hi : i < zs.length) :
    (r.sample interp zs[i].1 policy).run RingOp.exec m = some (.ok zs[i].2, m) := by
  have hnew : zs.length - 1 < zs.length := by omega
  have hsorted := h.sortedOn hs
  have hOld : r.stampOf m (r.first zs) ≤ zs[i].1 := by
    rw [← h.stampOf hlo hi]
    exact hsorted _ i le_rfl hlo (by omega)
  have hNew : zs[i].1 ≤ r.stampOf m (zs.length - 1) := by
    rw [← h.stampOf hlo hi]
    exact hsorted i _ hlo (by omega) le_rfl
  unfold SampleRing.sample SampleRing.readWith
  simp only [Prog.run_bind, r.run_loadHead, Option.bind_some, h.head]
  rw [if_neg (by omega)]
  simp only [Prog.run_bind, r.run_stampAt, Option.bind_some]
  change Option.bind (Prog.run RingOp.exec (if zs[i].1 < r.stampOf m (r.first zs) then _ else _) m)
    _ = _
  rw [if_neg (not_lt.mpr hOld), if_neg (not_lt.mpr hNew)]
  by_cases hlast : zs[i].1 = r.stampOf m (zs.length - 1)
  · -- the newest sample
    obtain rfl : i = zs.length - 1 := by
      by_contra hne
      rw [h.stampOf (by omega) hnew] at hlast
      have hlt := List.pairwise_iff_getElem.mp hs i (zs.length - 1) hi hnew (by omega)
      omega
    rw [if_pos hlast, SampleRing.held, Prog.run_bind, Prog.run_bindE, h.read hlo hi,
      Option.bind_some]
    dsimp only
    rw [h.revalidated hlo hi]
    rfl
  · -- inside the window: the search finds the sample itself
    rw [if_neg hlast]
    obtain ⟨j, hj, hjlast, -⟩ :=
      bracket_run hsorted (hlo.trans (by omega)) hOld (lt_of_le_of_ne hNew hlast)
    have hilast : r.IsLastLe m (r.first zs) (zs.length - 1) zs[i].1 i := by
      refine ⟨hlo, by omega, (h.stampOf hlo hi).le, fun k hk hk' hkt => ?_⟩
      by_contra hik
      rw [h.stampOf hk (by omega)] at hkt
      have hlt := List.pairwise_iff_getElem.mp hs i k hi (by omega) (by omega)
      omega
    obtain rfl := hjlast.unique hilast
    unfold SampleRing.first at hj
    rw [Prog.run_bind, hj, Option.bind_some, Prog.run_bind]
    dsimp only
    rw [h.readBracket interp hlo hi]
    rfl

/-- All stamps can be read, and the first one is the oldest, exactly if there are no more than
    `retained` of them. -/
theorem SampleRing.Carries.reads_all_iff (h : r.Carries m zs) (hp : r.PowerOfTwo)
    (hs : zs.Pairwise fun a b => a.1 < b.1) (interp : Iso3 F → Iso3 F → F → Iso3 F)
    (policy : ExtrapPolicy) :
    ((∀ s ∈ zs, (r.sample interp s.1 policy).run RingOp.exec m = some (.ok s.2, m)) ∧
      r.oldestStamp.run RingOp.exec m = some (zs.head?.map Prod.fst, m)) ↔
    zs.length ≤ r.retained := by
  constructor
  · rintro ⟨-, hold⟩
    rw [h.oldestStamp hp] at hold
    by_contra hlong
    have h0 : zs ≠ [] := fun h0 => hlong (by simp [h0])
    have hfirst := SampleRing.first_lt hp h0
    have hpos : 0 < r.first zs := by
      unfold SampleRing.first
      omega
    have hlt := List.pairwise_iff_getElem.mp hs 0 (r.first zs) (by omega) hfirst hpos
    rw [List.getElem?_eq_getElem hfirst, List.head?_eq_getElem?,
      List.getElem?_eq_getElem (by omega)] at hold
    have heq : zs[r.first zs].1 = zs[0].1 :=
      Option.some_inj.mp (congrArg Prod.fst (Option.some_inj.mp hold))
    omega
  · intro hshort
    have hfirst : r.first zs = 0 := by
      unfold SampleRing.first
      omega
    refine ⟨fun s hmem => ?_, ?_⟩
    · obtain ⟨i, hi, rfl⟩ := List.getElem_of_mem hmem
      exact h.sample hs interp policy (by omega) hi
    · rw [h.oldestStamp hp, hfirst, List.head?_eq_getElem?]

end Carries

end TfTree
