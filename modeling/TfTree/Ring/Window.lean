import Mathlib
import TfTree.Ring.Carry

/-!
# The window of a settled ring

`SampleRing::newest_stamp` and `stored` (`tf_tree_core/src/buffer.rs`), and what `sample`
answers on a ring that holds data and that nobody writes: a pose inside the retained
window, `Extrapolation` outside it.

Results:
* `SampleRing.Carries.settled`, `SampleRing.Ok.settled`: what pushes in order leave, and
  what pushes and deaths leave, is settled.
* `SampleRing.Settled.sample_inside`, `SampleRing.Settled.sample_outside`: the answer of
  `sample` at any stamp.
* `SampleRing.Settled.sample_stored`: the answer at the stamp of a sample.
-/

namespace TfTree

open Conc

variable {F : Type}

/-! ## Model of `buffer.rs` -/

/-- `SampleRing::newest_stamp` (lines 156–162). -/
def SampleRing.newestStamp (r : SampleRing F) : RingProg F (Option ℤ) := do
  let h ← r.loadHead
  if h = 0 then
    return none
  else
    let stamp ← r.stampAt (h - 1)
    return some stamp

/-- `SampleRing::stored` (lines 180–182). -/
def SampleRing.stored (r : SampleRing F) : RingProg F ℕ := do
  let h ← r.loadHead
  return min h r.retained

/-! ## Settled rings -/

/-- The ring holds data, and no slot of its window is being written. -/
structure SampleRing.Settled (r : SampleRing F) (m : RingArena F) : Prop where
  readable : r.Readable m
  pos : 0 < (m r.edge).head
  stable : ∀ i, r.Window (m r.edge).head i → (m r.edge).seq (r.slot i) &&& 1#32 = 0#32

/-- The stamps of the two ends of the window. -/
def SampleRing.oldest (r : SampleRing F) (m : RingArena F) : ℤ := r.stampOf m (r.lowest m)

def SampleRing.newest (r : SampleRing F) (m : RingArena F) : ℤ :=
  r.stampOf m ((m r.edge).head - 1)

/-- The pose in the slot of a logical index. -/
def SampleRing.poseOf (r : SampleRing F) (m : RingArena F) (i : ℕ) : Iso3 F :=
  Iso3.fromBits ((m r.edge).data (r.slot i))

section Settled

variable {r : SampleRing F} {m : RingArena F}

/-- What pushes in order leave, on a ring of any capacity. -/
theorem SampleRing.Carries.settled {zs : List (ℤ × Iso3 F)} (h : r.Carries m zs)
    (hp : r.PowerOfTwo) (h0 : zs ≠ []) (hs : zs.Pairwise fun a b => a.1 ≤ b.1)
    (hbound : zs.length < 2 ^ 63) : r.Settled m where
  readable := by
    refine ⟨hp.pos, ?_, by rwa [h.head]⟩
    intro i j hi hij hj
    have hlen := List.length_pos_iff.mpr h0
    unfold SampleRing.lowest at hi
    rw [h.head] at hi hj
    rw [h.stampOf hi (by omega), h.stampOf (hi.trans hij) (by omega)]
    rcases Nat.eq_or_lt_of_le hij with rfl | hlt
    · exact le_rfl
    · exact List.pairwise_iff_getElem.mp hs i j _ _ hlt
  pos := by
    rw [h.head]
    exact List.length_pos_iff.mpr h0
  stable := by
    intro i hi
    rw [h.head] at hi
    exact (h.holds i _ (List.getElem?_eq_getElem hi.2) hi).stable

/-- What pushes and deaths leave, on a ring of two slots or more. -/
theorem SampleRing.Ok.settled (hok : r.Ok m) (hc : 2 ≤ r.capacity) (h0 : 0 < (m r.edge).head)
    (hbound : (m r.edge).head < 2 ^ 63) : r.Settled m where
  readable := hok.readable hc hbound
  pos := h0
  stable := by
    intro i hi
    have hret := SampleRing.retained_of_two_le hc
    obtain ⟨hlt, hle⟩ := SampleRing.window_iff.mp hi
    have hlen := hok.head
    exact (hok.stored i _ (List.getElem?_eq_getElem (by omega)) (by omega)).stable

theorem SampleRing.Settled.oldest_le_newest (h : r.Settled m) : r.oldest m ≤ r.newest m := by
  have hlt := h.readable.lowest_lt h.pos.ne'
  exact h.readable.sorted _ _ le_rfl (by omega) le_rfl

/-- `newest_stamp` of a settled ring. -/
theorem SampleRing.Settled.run_newestStamp (h : r.Settled m) :
    r.newestStamp.run RingOp.exec m = some (some (r.newest m), m) := by
  unfold SampleRing.newestStamp
  rw [Prog.run_seq r.run_loadHead, if_neg h.pos.ne', Prog.run_seq (r.run_stampAt _)]
  rfl

/-- `oldest_stamp` of a settled ring. -/
theorem SampleRing.Settled.run_oldestStamp (h : r.Settled m) :
    r.oldestStamp.run RingOp.exec m = some (some (r.oldest m), m) := by
  unfold SampleRing.oldestStamp
  rw [Prog.run_seq r.run_loadHead, if_neg h.pos.ne', Prog.run_seq (r.run_stampAt _)]
  rfl

/-- What was read from the window is still there. -/
theorem SampleRing.revalidated_window {α : Type} {i : ℕ} (hi : r.Window (m r.edge).head i)
    (v : α) : (r.revalidated i v).run.run RingOp.exec m = some (.ok v, m) := by
  obtain ⟨hlt, hle⟩ := SampleRing.window_iff.mp hi
  exact run_revalidated hlt hle

variable [Kernels F]

/-- A slot of the window reads back. -/
theorem SampleRing.Settled.read (h : r.Settled m) {i : ℕ} (hi : r.Window (m r.edge).head i) :
    (r.readSlot (r.slot i)).run.run RingOp.exec m = some (.ok (r.poseOf m i), m) := by
  rw [run_readSlot, if_pos (h.stable i hi)]
  rfl

/-- The newest sample. -/
theorem SampleRing.Settled.held (h : r.Settled m) :
    (r.held ((m r.edge).head - 1)).run.run RingOp.exec m =
      some (.ok (r.poseOf m ((m r.edge).head - 1)), m) := by
  have hnew : r.Window (m r.edge).head ((m r.edge).head - 1) := by
    have hlt := h.readable.lowest_lt h.pos.ne'
    unfold SampleRing.lowest at hlt
    exact ⟨by omega, by omega⟩
  rw [SampleRing.held, Prog.run_bindE, h.read hnew]
  exact SampleRing.revalidated_window hnew _

/-- The bracket at an index of the window that is not the newest. -/
theorem SampleRing.Settled.readBracket (h : r.Settled m) (interp : Iso3 F → Iso3 F → F → Iso3 F)
    (t : ℤ) {i : ℕ} (hi : r.Window (m r.edge).head i) (hi' : i < (m r.edge).head - 1) :
    (r.readBracket id interp i t).run.run RingOp.exec m =
      some (.ok (if r.stampOf m i = t then r.poseOf m i
        else interp (r.poseOf m i) (r.poseOf m (i + 1)) ((spanNs (r.stampOf m i) t : F) /
          (spanNs (r.stampOf m i) (r.stampOf m (i + 1)) : F))), m) := by
  have hnext : r.Window (m r.edge).head (i + 1) := by
    obtain ⟨hlo, -⟩ := hi
    exact ⟨by omega, by omega⟩
  unfold SampleRing.readBracket
  rw [Prog.run_bindE, Prog.run_liftE, r.run_stampAt]
  show (if r.stampOf m i = t then _ else _ : RingM F (Iso3 F)).run.run RingOp.exec m = _
  by_cases ht : r.stampOf m i = t
  · rw [if_pos ht, if_pos ht, Prog.run_bindE, h.read hi]
    exact SampleRing.revalidated_window hi _
  · rw [if_neg ht, if_neg ht, Prog.run_bindE, Prog.run_liftE, r.run_stampAt]
    show (r.readSlot (r.slot i) >>= _ : RingM F (Iso3 F)).run.run RingOp.exec m = _
    rw [Prog.run_bindE, h.read hi]
    show (r.readSlot (r.slot (i + 1)) >>= _ : RingM F (Iso3 F)).run.run RingOp.exec m = _
    rw [Prog.run_bindE, h.read hnext]
    exact SampleRing.revalidated_window hi _

/-- A stamp outside the window is refused. -/
theorem SampleRing.Settled.sample_outside (h : r.Settled m)
    (interp : Iso3 F → Iso3 F → F → Iso3 F) {t : ℤ} (ht : t < r.oldest m ∨ r.newest m < t) :
    (r.sample interp t .error).run RingOp.exec m =
      some (.error (.extrapolation r.edge t (r.oldest m) (r.newest m)), m) := by
  have hle := h.oldest_le_newest
  unfold SampleRing.sample SampleRing.readWith
  rw [Prog.run_bind, Prog.run_seq r.run_loadHead, if_neg h.pos.ne',
    Prog.run_seq (r.run_stampAt _), Prog.run_seq (r.run_stampAt _)]
  change Option.bind (Prog.run RingOp.exec (if t < r.oldest m then _ else if t > r.newest m
    then _ else _) m) _ = _
  by_cases hlt : t < r.oldest m
  · rw [if_pos hlt]
    rfl
  · rw [if_neg hlt, if_pos (ht.resolve_left hlt)]
    rfl

/-- A stamp of the window is answered with a pose. -/
theorem SampleRing.Settled.sample_inside (h : r.Settled m)
    (interp : Iso3 F → Iso3 F → F → Iso3 F) (policy : ExtrapPolicy) {t : ℤ}
    (hlo : r.oldest m ≤ t) (hhi : t ≤ r.newest m) : ∃ p,
    (r.sample interp t policy).run RingOp.exec m = some (.ok p, m) := by
  unfold SampleRing.sample SampleRing.readWith
  rw [Prog.run_bind, Prog.run_seq r.run_loadHead, if_neg h.pos.ne',
    Prog.run_seq (r.run_stampAt _), Prog.run_seq (r.run_stampAt _)]
  change ∃ p, Option.bind (Prog.run RingOp.exec (if t < r.oldest m then _ else
    if t > r.newest m then _ else if t = r.newest m then _ else _) m) _ = _
  rw [if_neg (not_lt.mpr hlo), if_neg (not_lt.mpr hhi)]
  by_cases hnew : t = r.newest m
  · rw [if_pos hnew, Prog.run_seq h.held]
    exact ⟨_, rfl⟩
  · have hlt := h.readable.lowest_lt h.pos.ne'
    obtain ⟨i, hi, hlast, hi'⟩ := bracket_run h.readable.sorted (by omega) hlo
      (lt_of_le_of_ne hhi hnew)
    have hread := h.readBracket interp t ⟨hlast.1, by omega⟩ hi'
    unfold SampleRing.lowest at hi
    rw [if_neg hnew, Prog.run_seq hi, Prog.run_seq hread]
    exact ⟨_, rfl⟩

/-- The stamp of a sample of the window is answered with the last pose of this stamp. -/
theorem SampleRing.Settled.sample_stored (h : r.Settled m)
    (interp : Iso3 F → Iso3 F → F → Iso3 F) (policy : ExtrapPolicy) {i : ℕ}
    (hi : r.Window (m r.edge).head i) : ∃ j, i ≤ j ∧ j < (m r.edge).head ∧
      r.stampOf m j = r.stampOf m i ∧
      (r.sample interp (r.stampOf m i) policy).run RingOp.exec m =
        some (.ok (r.poseOf m j), m) := by
  have hlt := h.readable.lowest_lt h.pos.ne'
  have hlast := hi.2
  have hlo : r.oldest m ≤ r.stampOf m i := h.readable.sorted _ _ le_rfl hi.1 (by omega)
  have hhi : r.stampOf m i ≤ r.newest m := h.readable.sorted _ _ hi.1 (by omega) le_rfl
  unfold SampleRing.sample SampleRing.readWith
  rw [Prog.run_bind, Prog.run_seq r.run_loadHead, if_neg h.pos.ne',
    Prog.run_seq (r.run_stampAt _), Prog.run_seq (r.run_stampAt _)]
  change ∃ j, _ ∧ _ ∧ _ ∧ Option.bind (Prog.run RingOp.exec (if r.stampOf m i < r.oldest m then _
    else if r.stampOf m i > r.newest m then _ else if r.stampOf m i = r.newest m then _ else _) m)
    _ = _
  rw [if_neg (not_lt.mpr hlo), if_neg (not_lt.mpr hhi)]
  by_cases hnew : r.stampOf m i = r.newest m
  · rw [if_pos hnew, Prog.run_seq h.held]
    exact ⟨(m r.edge).head - 1, by have := hi.2; omega, by omega, hnew.symm, rfl⟩
  · obtain ⟨j, hj, hlast, hj'⟩ := bracket_run h.readable.sorted (by omega) hlo
      (lt_of_le_of_ne hhi hnew)
    obtain ⟨hjlo, -, hjt, hjmax⟩ := hlast
    have hij : i ≤ j := hjmax i hi.1 (by have := hi.2; omega) le_rfl
    have hsame : r.stampOf m j = r.stampOf m i :=
      le_antisymm hjt (h.readable.sorted _ _ hi.1 hij (by omega))
    have hread := h.readBracket interp (r.stampOf m i) ⟨hjlo, by omega⟩ hj'
    rw [if_pos hsame] at hread
    unfold SampleRing.lowest at hj
    rw [if_neg hnew, Prog.run_seq hj, Prog.run_seq hread]
    exact ⟨j, hij, by omega, hsame, rfl⟩

end Settled

end TfTree
