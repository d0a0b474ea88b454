import Mathlib
import TfTree.Conc.Cut
import TfTree.Ring.Writer

/-!
# The heartbeat assertion of a push

`SampleRing::push` as a debug build compiles it: after its `head` store a push loads
`heartbeat` and asserts that it is the count before the push. Histories of such pushes, in
which a writer may die after any access and another one continues.

Results:
* `push_eq_prepare`, `run_pushDebug`: where the assertion holds, the debug build does what
  `push` does.
* `synced_step`, `behind_step`: what one push, completed or cut, makes of the two counters.
* `assertions_hold_iff`: the assertion fires exactly in a push that gets as far as it after
  an earlier one that died between its two counter stores.
-/

namespace TfTree

open Conc

variable {F : Type}

/-! ## Model of `push`, with its assertion -/

/-- The access of the assertion: `self.heartbeat.load`. -/
inductive HeartbeatOp where
  | load (e : EdgeId)

/-- The type of the value an access of a debug build returns. -/
@[reducible] def DebugRes : RingOp F ⊕ HeartbeatOp → Type := Sum.elim RingOp.Res fun _ => ℕ

/-- Programs over the accesses of a debug build. -/
abbrev DebugProg (F : Type) := Prog (RingOp F ⊕ HeartbeatOp) DebugRes

/-- The meaning of one access of a debug build. -/
def debugExec : (o : RingOp F ⊕ HeartbeatOp) → RingArena F → DebugRes o × RingArena F
  | .inl o, m => o.exec m
  | .inr (.load e), m => ((m e).heartbeat, m)

namespace SampleRing

variable (r : SampleRing F)

/-- The stores of `push` to the slot of the logical index `h`. -/
def fillSlot (h : ℕ) (stamp : ℤ) (iso : Iso3 F) : RingProg F Unit := do
  let idx := r.slot h
  let seq ← r.loadSeq idx
  let odd := seq ||| 1#32
  r.storeSeq idx odd
  r.storeStamp idx stamp
  r.storeWords idx iso.toBits (List.finRange 7)
  r.storeSeq idx (odd + 1#32)

/-- `push` before its `head` store (lines 192–230): the count it loaded, or the error of
    the stamp check. -/
def prepare (stamp : ℤ) (iso : Iso3 F) : RingProg F (Except PushError ℕ) := do
  let h ← r.loadHead
  if h > 0 then
    let last ← r.stampAt (h - 1)
    if stamp < last then
      return .error (.nonMonotonicStamp r.edge last stamp)
    else
      r.fillSlot h stamp iso
      return .ok h
  else
    r.fillSlot h stamp iso
    return .ok h

/-- `self.heartbeat.load`. -/
def loadHeartbeat : DebugProg F ℕ := Prog.op (Sum.inr (HeartbeatOp.load r.edge))

/-- The `head` store, the assertion and the `heartbeat` store (lines 232–243). -/
def count (h : ℕ) (stamp : ℤ) (iso : Iso3 F) : DebugProg F (Except PushError Unit) := do
  (r.storeHead (h + 1) (stamp, iso)).inl
  let beat ← r.loadHeartbeat
  if beat ≠ h then .abort
  else
    (r.storeHeartbeat (h + 1)).inl
    return .ok ()

/-- `SampleRing::push` (`buffer.rs`, lines 191–244), as compiled with debug assertions. -/
def pushDebug (stamp : ℤ) (iso : Iso3 F) : DebugProg F (Except PushError Unit) := do
  let out ← (r.prepare stamp iso).inl
  match out with
  | .error e => return .error e
  | .ok h => r.count h stamp iso

/-- The memory a history of pushes of a debug build leaves. -/
def historyDebug (m : RingArena F) (events : List (PushEvent F)) : RingArena F :=
  events.foldl (fun m ev => (r.pushDebug ev.stamp ev.iso).runFor debugExec ev.accesses m) m

/-- The assertion fires in no push of the history. -/
def AssertionsHold (m : RingArena F) (events : List (PushEvent F)) : Prop :=
  ∀ before ev after, events = before ++ ev :: after →
    (r.pushDebug ev.stamp ev.iso).fails debugExec ev.accesses (r.historyDebug m before) = false

/-! ## Where a push is cut -/

/-- The stamp check of `push` accepts the stamp. -/
def InOrder (m : RingArena F) (stamp : ℤ) : Prop :=
  (m r.edge).head = 0 ∨ r.stampOf m ((m r.edge).head - 1) ≤ stamp

/-- The accesses of a push before its `head` store: the loads of `head` and of the newest
    stamp, and eleven accesses to the slot. -/
def headAccess (m : RingArena F) : ℕ := if (m r.edge).head = 0 then 12 else 13

/-- The push dies after its `head` store and before its `heartbeat` store. -/
def DiesBetween (m : RingArena F) (ev : PushEvent F) : Prop :=
  r.InOrder m ev.stamp ∧ r.headAccess m < ev.accesses ∧ ev.accesses ≤ r.headAccess m + 2

/-- The push gets as far as its assertion. -/
def Asserts (m : RingArena F) (ev : PushEvent F) : Prop :=
  r.InOrder m ev.stamp ∧ r.headAccess m + 2 ≤ ev.accesses

/-- Every completed push has moved both counters. -/
def Synced (m : RingArena F) : Prop := (m r.edge).heartbeat = (m r.edge).head

/-- Some push moved `head` only. -/
def Behind (m : RingArena F) : Prop := (m r.edge).heartbeat < (m r.edge).head

end SampleRing

/-! ## The accesses before the `head` store -/

/-- The access stores to no counter. -/
def RingOp.KeepsCounters : RingOp F → Prop
  | .storeHead _ _ _ | .storeHeartbeat _ _ => False
  | _ => True

/-- Both counters of the ring are as in `m`. -/
def SampleRing.SameCounters (r : SampleRing F) (m m' : RingArena F) : Prop :=
  (m' r.edge).head = (m r.edge).head ∧ (m' r.edge).heartbeat = (m r.edge).heartbeat

section Prepare

variable {r : SampleRing F} {m m' : RingArena F} {stamp : ℤ} {iso : Iso3 F}

theorem sameCounters_upd {m₀ : RingArena F} {e : EdgeId} {x : RingMem F}
    (hhead : x.head = (m e).head) (hbeat : x.heartbeat = (m e).heartbeat)
    (h : r.SameCounters m₀ m) : r.SameCounters m₀ (upd m e x) := by
  obtain ⟨hh, hb⟩ := h
  unfold SampleRing.SameCounters
  rw [upd_apply]
  split_ifs with he
  · subst he
    exact ⟨hhead.trans hh, hbeat.trans hb⟩
  · exact ⟨hh, hb⟩

theorem sameCounters_exec {m₀ : RingArena F} (o : RingOp F) (m : RingArena F)
    (ho : o.KeepsCounters) (h : r.SameCounters m₀ m) : r.SameCounters m₀ (o.exec m).2 := by
  cases o with
  | loadHead | loadStamp | loadSeq | loadData => exact h
  | storeSeq | storeStamp | storeData => exact sameCounters_upd rfl rfl h
  | storeHead | storeHeartbeat => exact ho.elim

theorem storeWords_keeps (idx : ℕ) (bits : Fin 7 → F) (is : List (Fin 7)) :
    (r.storeWords idx bits is).Only RingOp.KeepsCounters := by
  induction is with
  | nil => trivial
  | cons i is ih => exact (Prog.Only.op trivial).bind fun _ => ih

theorem fillSlot_keeps (h : ℕ) (stamp : ℤ) (iso : Iso3 F) :
    (r.fillSlot h stamp iso).Only RingOp.KeepsCounters := by
  refine (Prog.Only.op trivial).bind fun seq => ?_
  refine (Prog.Only.op trivial).bind fun _ => (Prog.Only.op trivial).bind fun _ => ?_
  exact (storeWords_keeps _ _ _).bind fun _ => Prog.Only.op trivial

theorem prepare_keeps (stamp : ℤ) (iso : Iso3 F) :
    (r.prepare stamp iso).Only RingOp.KeepsCounters := by
  refine (Prog.Only.op trivial).bind fun h => ?_
  split_ifs
  · refine (Prog.Only.op trivial).bind fun last => ?_
    split_ifs
    · trivial
    · exact (fillSlot_keeps _ _ _).bind fun _ => trivial
  · exact (fillSlot_keeps _ _ _).bind fun _ => trivial

/-- The payload loop takes one access for each word. -/
theorem run_storeWords (idx : ℕ) (bits : Fin 7 → F) (is : List (Fin 7)) (m : RingArena F) :
    ∃ m', (r.storeWords idx bits is).run RingOp.exec m = some ((), m') ∧
      (r.storeWords idx bits is).cost RingOp.exec m = is.length := by
  induction is generalizing m with
  | nil => exact ⟨m, rfl, rfl⟩
  | cons i is ih =>
    obtain ⟨m', hrun, hcost⟩ := ih (RingOp.exec (.storeData r.edge idx i (bits i)) m).2
    exact ⟨m', hrun, congrArg (· + 1) hcost⟩

/-- Filling a slot takes eleven accesses. -/
theorem run_fillSlot (h : ℕ) (stamp : ℤ) (iso : Iso3 F) (m : RingArena F) :
    ∃ m', (r.fillSlot h stamp iso).run RingOp.exec m = some ((), m') ∧
      (r.fillSlot h stamp iso).cost RingOp.exec m = 11 := by
  -- the memory when the payload loop starts
  obtain ⟨m1, hm1⟩ : ∃ m1, m1 = (RingOp.exec (.storeStamp r.edge (r.slot h) stamp)
    (RingOp.exec (.storeSeq r.edge (r.slot h) ((m r.edge).seq (r.slot h) ||| 1#32)) m).2).2 :=
    ⟨_, rfl⟩
  obtain ⟨m2, hrun, hcost⟩ := run_storeWords (r := r) (r.slot h) iso.toBits (List.finRange 7) m1
  have hlast : ∀ odd : BitVec 32,
      (r.storeWords (r.slot h) iso.toBits (List.finRange 7) >>= fun _ =>
        r.storeSeq (r.slot h) (odd + 1#32)).cost RingOp.exec m1 = 8 := by
    intro odd
    rw [Prog.cost_seq hrun, hcost]
    rfl
  refine ⟨(RingOp.exec (.storeSeq r.edge (r.slot h)
    (((m r.edge).seq (r.slot h) ||| 1#32) + 1#32)) m2).2, ?_, ?_⟩
  · subst hm1
    have hseq := Prog.run_seq (f := fun _ => r.storeSeq (r.slot h)
      (((m r.edge).seq (r.slot h) ||| 1#32) + 1#32)) hrun
    exact hseq
  · subst hm1
    exact congrArg (· + 3) (hlast ((m r.edge).seq (r.slot h) ||| 1#32))

/-- A push in order gets to its `head` store. -/
theorem run_prepare (iso : Iso3 F) (h : r.InOrder m stamp) :
    ∃ m', (r.prepare stamp iso).run RingOp.exec m = some (.ok (m r.edge).head, m') ∧
      (r.prepare stamp iso).cost RingOp.exec m = r.headAccess m := by
  obtain ⟨m', hrun, hcost⟩ := run_fillSlot (r := r) (m r.edge).head stamp iso m
  have hfill := Prog.run_seq (f := fun _ => (pure (Except.ok (m r.edge).head) :
    RingProg F (Except PushError ℕ))) hrun
  have hlen := Prog.cost_seq (f := fun _ => (pure (Except.ok (m r.edge).head) :
    RingProg F (Except PushError ℕ))) hrun
  rw [hcost] at hlen
  unfold SampleRing.prepare SampleRing.headAccess
  rw [Prog.run_seq r.run_loadHead, Prog.cost_seq r.run_loadHead]
  refine ⟨m', ?_⟩
  rcases Nat.eq_zero_or_pos (m r.edge).head with h0 | h0
  · rw [if_neg (by omega), if_pos h0]
    exact ⟨hfill, congrArg (1 + ·) hlen⟩
  · have hle : ¬ stamp < r.stampOf m ((m r.edge).head - 1) := by
      rcases h with h | h
      · omega
      · omega
    rw [if_pos h0, if_neg (by omega), Prog.run_seq (r.run_stampAt _),
      Prog.cost_seq (r.run_stampAt _), if_neg hle]
    refine ⟨hfill, ?_⟩
    rw [hlen]
    rfl

/-- A push that is not in order stops at the stamp check. -/
theorem run_prepare_of_not_inOrder (iso : Iso3 F) (h : ¬ r.InOrder m stamp) :
    ∃ e, (r.prepare stamp iso).run RingOp.exec m = some (.error e, m) := by
  unfold SampleRing.InOrder at h
  push Not at h
  obtain ⟨h0, hlt⟩ := h
  unfold SampleRing.prepare
  rw [Prog.run_seq r.run_loadHead, if_pos (by omega), Prog.run_seq (r.run_stampAt _), if_pos hlt]
  exact ⟨_, rfl⟩

end Prepare

/-! ## The debug build and the release build -/

section Debug

variable {r : SampleRing F} {m m' : RingArena F} {stamp : ℤ} {iso : Iso3 F} {ev : PushEvent F}

/-- `push` is the part before the `head` store and the two counter stores. -/
theorem push_eq_prepare (stamp : ℤ) (iso : Iso3 F) : r.push stamp iso = (do
    let out ← r.prepare stamp iso
    match out with
    | .error e => return .error e
    | .ok h =>
      r.storeHead (h + 1) (stamp, iso)
      r.storeHeartbeat (h + 1)
      return .ok ()) := by
  unfold SampleRing.push SampleRing.prepare SampleRing.pushSlot SampleRing.fillSlot
  simp only [bind_assoc]
  congr 1
  funext h
  split_ifs
  · simp only [bind_assoc]
    congr 1
    funext last
    split_ifs
    · simp only [pure_bind]
    · simp only [bind_assoc, pure_bind]
  · simp only [bind_assoc, pure_bind]

theorem debugExec_inl (o : RingOp F) (m : RingArena F) :
    debugExec (.inl o) m = RingOp.exec o m := rfl

/-- The accesses before the `head` store, in a debug build. -/
theorem run_prepare_debug (iso : Iso3 F) (h : r.InOrder m stamp) : ∃ m',
    ((r.prepare stamp iso).inl : DebugProg F _).run debugExec m =
      some (.ok (m r.edge).head, m') ∧
    ((r.prepare stamp iso).inl : DebugProg F _).cost debugExec m = r.headAccess m ∧
    r.SameCounters m m' := by
  obtain ⟨m', hrun, hcost⟩ := run_prepare iso h
  refine ⟨m', ?_, ?_, ?_⟩
  · rw [Prog.run_inl debugExec_inl]
    exact hrun
  · rw [Prog.cost_inl debugExec_inl]
    exact hcost
  · exact Prog.run_only sameCounters_exec (prepare_keeps _ _) ⟨rfl, rfl⟩ hrun

theorem runFor_prepare_debug (stamp : ℤ) (iso : Iso3 F) (n : ℕ) (m : RingArena F) :
    r.SameCounters m (((r.prepare stamp iso).inl : DebugProg F _).runFor debugExec n m) := by
  rw [Prog.runFor_inl debugExec_inl]
  exact Prog.runFor_only sameCounters_exec (prepare_keeps _ _) ⟨rfl, rfl⟩ n

/-- The last accesses of a push, cut after the first `n` of them. -/
theorem count_cut (stamp : ℤ) (iso : Iso3 F) (m : RingArena F) (h n : ℕ) (hn : 0 < n) :
    ((r.count h stamp iso).runFor debugExec n m r.edge).head = h + 1 ∧
    ((r.count h stamp iso).runFor debugExec n m r.edge).heartbeat =
      (if (m r.edge).heartbeat = h ∧ 3 ≤ n then h + 1 else (m r.edge).heartbeat) ∧
    (r.count h stamp iso).fails debugExec n m =
      decide (2 ≤ n ∧ (m r.edge).heartbeat ≠ h) := by
  obtain ⟨m1, hm1⟩ : ∃ m1, m1 = (RingOp.exec (.storeHead r.edge (h + 1) (stamp, iso)) m).2 :=
    ⟨_, rfl⟩
  have hhead1 : (m1 r.edge).head = h + 1 := by simp [hm1, RingOp.exec]
  have hbeat1 : (m1 r.edge).heartbeat = (m r.edge).heartbeat := by simp [hm1, RingOp.exec]
  -- the accesses after the `head` store
  obtain ⟨rest, hrest⟩ : ∃ rest : DebugProg F (Except PushError Unit), rest =
      (if (m r.edge).heartbeat ≠ h then .abort
        else do
          (r.storeHeartbeat (h + 1)).inl
          return .ok ()) := ⟨_, rfl⟩
  rcases n with _ | _ | n
  · exact absurd hn (lt_irrefl 0)
  · have h1 : (r.count h stamp iso).runFor debugExec 1 m = m1 := hm1 ▸ rfl
    have h2 : (r.count h stamp iso).fails debugExec 1 m = false := rfl
    rw [h1, h2]
    simp [hhead1, hbeat1]
  · have h1 : (r.count h stamp iso).runFor debugExec (n + 2) m = rest.runFor debugExec n m1 := by
      rw [hm1, hrest, ← hbeat1, hm1]
      rfl
    have h2 : (r.count h stamp iso).fails debugExec (n + 2) m = rest.fails debugExec n m1 := by
      rw [hm1, hrest, ← hbeat1, hm1]
      rfl
    rw [h1, h2, hrest]
    by_cases hbeat : (m r.edge).heartbeat = h
    · rw [if_neg (not_not.mpr hbeat)]
      cases n with
      | zero =>
        have h3 : ((r.storeHeartbeat (h + 1)).inl >>= fun _ => (return .ok () :
            DebugProg F (Except PushError Unit))).fails debugExec 0 m1 = false := rfl
        rw [Prog.runFor_zero, h3]
        simp [hhead1, hbeat1, hbeat]
      | succ n =>
        obtain ⟨m2, hm2⟩ : ∃ m2, m2 = (RingOp.exec (.storeHeartbeat r.edge (h + 1)) m1).2 :=
          ⟨_, rfl⟩
        have h3 : ((r.storeHeartbeat (h + 1)).inl >>= fun _ => (return .ok () :
            DebugProg F (Except PushError Unit))).runFor debugExec (n + 1) m1 = m2 :=
          hm2 ▸ Prog.runFor_ret _ n _
        have h4 : ((r.storeHeartbeat (h + 1)).inl >>= fun _ => (return .ok () :
            DebugProg F (Except PushError Unit))).fails debugExec (n + 1) m1 = false :=
          Prog.fails_ret _ n _
        have hhead2 : (m2 r.edge).head = h + 1 := by simp [hm2, RingOp.exec, hhead1]
        have hbeat2 : (m2 r.edge).heartbeat = h + 1 := by simp [hm2, RingOp.exec]
        rw [h3, h4]
        simp [hhead2, hbeat2, hbeat]
    · rw [if_pos hbeat, Prog.fails_abort]
      have h3 : (Prog.abort : DebugProg F (Except PushError Unit)).runFor debugExec n m1 = m1 := by
        cases n <;> rfl
      rw [h3]
      simp [hhead1, hbeat1, hbeat]

/-- A push that does not get to its `head` store moves no counter. -/
theorem pushDebug_early (h : ¬ (r.InOrder m ev.stamp ∧ r.headAccess m < ev.accesses)) :
    r.SameCounters m ((r.pushDebug ev.stamp ev.iso).runFor debugExec ev.accesses m) ∧
    (r.pushDebug ev.stamp ev.iso).fails debugExec ev.accesses m = false := by
  have hcut := runFor_prepare_debug (r := r) ev.stamp ev.iso ev.accesses m
  unfold SampleRing.pushDebug
  by_cases hin : r.InOrder m ev.stamp
  · obtain ⟨m', hrun, hcost, hsame⟩ := run_prepare_debug ev.iso hin
    have hle : ev.accesses ≤ r.headAccess m := by
      by_contra hlt
      exact h ⟨hin, by omega⟩
    rw [Prog.runFor_seq hrun, Prog.fails_seq hrun, hcost]
    split_ifs with hlt
    · exact ⟨hcut, rfl⟩
    · have h0 : ev.accesses - r.headAccess m = 0 := by omega
      rw [h0, Prog.runFor_zero]
      exact ⟨hsame, rfl⟩
  · obtain ⟨e, hrun⟩ := run_prepare_of_not_inOrder ev.iso hin
    rw [← Prog.run_inl debugExec_inl] at hrun
    rw [Prog.runFor_seq hrun, Prog.fails_seq hrun]
    split_ifs with hlt
    · exact ⟨hcut, rfl⟩
    · refine ⟨?_, Prog.fails_ret _ _ _⟩
      change r.SameCounters m ((Prog.ret _).runFor debugExec _ m)
      rw [Prog.runFor_ret]
      exact ⟨rfl, rfl⟩

/-- The counters after a push that got to its `head` store. -/
theorem pushDebug_late (hin : r.InOrder m ev.stamp) (hlt : r.headAccess m < ev.accesses)
    (hm' : (r.pushDebug ev.stamp ev.iso).runFor debugExec ev.accesses m = m') :
    (m' r.edge).head = (m r.edge).head + 1 ∧
    (m' r.edge).heartbeat =
      (if (m r.edge).heartbeat = (m r.edge).head ∧ r.headAccess m + 3 ≤ ev.accesses
        then (m r.edge).head + 1 else (m r.edge).heartbeat) ∧
    (r.pushDebug ev.stamp ev.iso).fails debugExec ev.accesses m =
      decide (r.headAccess m + 2 ≤ ev.accesses ∧ (m r.edge).heartbeat ≠ (m r.edge).head) := by
  obtain ⟨m1, hrun, hcost, -, hbeat⟩ := run_prepare_debug ev.iso hin
  obtain ⟨h1, h2, h3⟩ := count_cut (r := r) ev.stamp ev.iso m1 (m r.edge).head
    (ev.accesses - r.headAccess m) (by omega)
  have hcut : ¬ ev.accesses < r.headAccess m := by omega
  have hcut2 : 2 ≤ ev.accesses - r.headAccess m ↔ r.headAccess m + 2 ≤ ev.accesses := by omega
  have hcut3 : 3 ≤ ev.accesses - r.headAccess m ↔ r.headAccess m + 3 ≤ ev.accesses := by omega
  unfold SampleRing.pushDebug at hm' ⊢
  rw [Prog.runFor_seq hrun, hcost, if_neg hcut] at hm'
  rw [Prog.fails_seq hrun, hcost, if_neg hcut]
  change (r.count _ _ _).runFor _ _ _ = _ at hm'
  rw [hm'] at h1 h2
  rw [hbeat] at h2 h3
  simp only [hcut2, hcut3] at h2 h3
  exact ⟨h1, h2, h3⟩

/-- **Step lemma.** From equal counters the assertion does not fire, and the counters stay
    equal unless the push dies between their stores. -/
theorem synced_step (h : r.Synced m) (ev : PushEvent F) :
    (r.pushDebug ev.stamp ev.iso).fails debugExec ev.accesses m = false ∧
    (r.DiesBetween m ev →
      r.Behind ((r.pushDebug ev.stamp ev.iso).runFor debugExec ev.accesses m)) ∧
    (¬ r.DiesBetween m ev →
      r.Synced ((r.pushDebug ev.stamp ev.iso).runFor debugExec ev.accesses m)) := by
  unfold SampleRing.Synced at h
  unfold SampleRing.DiesBetween SampleRing.Behind SampleRing.Synced
  by_cases hlate : r.InOrder m ev.stamp ∧ r.headAccess m < ev.accesses
  · obtain ⟨hhead, hbeat, hfails⟩ := pushDebug_late hlate.1 hlate.2 rfl
    rw [hhead, hbeat, hfails]
    refine ⟨by simp [h], fun hd => ?_, fun hd => ?_⟩
    · rw [if_neg (by omega)]
      omega
    · have hle : r.headAccess m + 3 ≤ ev.accesses := by
        by_contra hle
        exact hd ⟨hlate.1, hlate.2, by omega⟩
      rw [if_pos ⟨h, hle⟩]
  · obtain ⟨⟨hhead, hbeat⟩, hfails⟩ := pushDebug_early hlate
    refine ⟨hfails, fun hd => absurd ⟨hd.1, hd.2.1⟩ hlate, fun _ => ?_⟩
    rw [hhead, hbeat, h]

/-- **Step lemma.** A heartbeat that is behind stays behind, and the assertion of the next
    push that gets as far fires. -/
theorem behind_step (h : r.Behind m) (ev : PushEvent F) :
    ((r.pushDebug ev.stamp ev.iso).fails debugExec ev.accesses m = true ↔ r.Asserts m ev) ∧
    r.Behind ((r.pushDebug ev.stamp ev.iso).runFor debugExec ev.accesses m) := by
  unfold SampleRing.Behind at h
  unfold SampleRing.Asserts SampleRing.Behind
  by_cases hlate : r.InOrder m ev.stamp ∧ r.headAccess m < ev.accesses
  · obtain ⟨hhead, hbeat, hfails⟩ := pushDebug_late hlate.1 hlate.2 rfl
    rw [hhead, hbeat, hfails, if_neg (by omega), decide_eq_true_iff]
    refine ⟨⟨fun hf => ⟨hlate.1, hf.1⟩, fun hf => ⟨hf.2, by omega⟩⟩, by omega⟩
  · obtain ⟨⟨hhead, hbeat⟩, hfails⟩ := pushDebug_early hlate
    rw [hhead, hbeat, hfails]
    refine ⟨⟨fun hf => absurd hf (by decide), fun hf => ?_⟩, h⟩
    exact absurd ⟨hf.1, by omega⟩ hlate

/-- Where the counters agree, a debug build does what `push` does. -/
theorem run_pushDebug (h : r.Synced m) (stamp : ℤ) (iso : Iso3 F) :
    (r.pushDebug stamp iso).run debugExec m = (r.push stamp iso).run RingOp.exec m := by
  rw [push_eq_prepare]
  unfold SampleRing.pushDebug
  by_cases hin : r.InOrder m stamp
  · obtain ⟨m1, hrun, -, -, hbeat⟩ := run_prepare_debug iso hin
    have hrelease := hrun
    rw [Prog.run_inl debugExec_inl] at hrelease
    rw [Prog.run_seq hrun, Prog.run_seq hrelease]
    obtain ⟨m2, hm2⟩ : ∃ m2, m2 = (RingOp.exec (.storeHead r.edge ((m r.edge).head + 1)
      (stamp, iso)) m1).2 := ⟨_, rfl⟩
    have hbeat2 : (m2 r.edge).heartbeat = (m r.edge).head := by
      rw [← h, ← hbeat]
      simp [hm2, RingOp.exec]
    have hstep : (r.count (m r.edge).head stamp iso).run debugExec m1 =
        (if (m2 r.edge).heartbeat ≠ (m r.edge).head then .abort
          else do
            (r.storeHeartbeat ((m r.edge).head + 1)).inl
            return .ok () : DebugProg F (Except PushError Unit)).run debugExec m2 := hm2 ▸ rfl
    refine hstep.trans ?_
    rw [if_neg (not_not.mpr hbeat2), hm2]
    rfl
  · obtain ⟨e, hrun⟩ := run_prepare_of_not_inOrder iso hin
    have hdebug := hrun
    rw [← Prog.run_inl debugExec_inl] at hdebug
    rw [Prog.run_seq hrun, Prog.run_seq hdebug]
    rfl

/-! ## Histories -/

/-- The places of a list with a head. -/
theorem forall_split_cons {α : Type} {P : List α → α → List α → Prop} {x : α} {xs : List α} :
    (∀ before y after, x :: xs = before ++ y :: after → P before y after) ↔
      P [] x xs ∧ ∀ before y after, xs = before ++ y :: after → P (x :: before) y after := by
  constructor
  · intro h
    refine ⟨h [] x xs rfl, fun before y after he => ?_⟩
    exact h (x :: before) y after (by rw [he, List.cons_append])
  · rintro ⟨hfirst, hrest⟩ before y after he
    cases before with
    | nil =>
      obtain ⟨rfl, rfl⟩ := List.cons_eq_cons.mp he
      exact hfirst
    | cons z before =>
      obtain ⟨rfl, rfl⟩ := List.cons_eq_cons.mp he
      exact hrest before y after rfl

theorem assertionsHold_nil : r.AssertionsHold m [] := by
  intro before ev after he
  cases before <;> cases he

theorem assertionsHold_cons {events : List (PushEvent F)} :
    r.AssertionsHold m (ev :: events) ↔
      (r.pushDebug ev.stamp ev.iso).fails debugExec ev.accesses m = false ∧
      r.AssertionsHold ((r.pushDebug ev.stamp ev.iso).runFor debugExec ev.accesses m) events :=
  forall_split_cons

/-- **Run lemma.** From a heartbeat that is behind, the assertion fires in every push that
    gets as far. -/
theorem behind_run (h : r.Behind m) (events : List (PushEvent F)) :
    r.AssertionsHold m events ↔ ∀ before ev after, events = before ++ ev :: after →
      ¬ r.Asserts (r.historyDebug m before) ev := by
  induction events generalizing m with
  | nil =>
    refine iff_of_true assertionsHold_nil fun before ev after he => ?_
    cases before <;> cases he
  | cons ev events ih =>
    obtain ⟨hfails, hbehind⟩ := behind_step h ev
    rw [assertionsHold_cons, ih hbehind, forall_split_cons, ← Bool.not_eq_true, hfails]
    exact Iff.rfl

/-- **Main theorem.** From equal counters, the assertion fires in no push of a history
    exactly when no push that dies after its `head` store and before its `heartbeat` store
    is followed by one that gets as far as the assertion. -/
theorem assertions_hold_iff (h : r.Synced m) (events : List (PushEvent F)) :
    r.AssertionsHold m events ↔ ∀ before ev rest, events = before ++ ev :: rest →
      r.DiesBetween (r.historyDebug m before) ev →
      ∀ between ev' after, rest = between ++ ev' :: after →
        ¬ r.Asserts (r.historyDebug m (before ++ ev :: between)) ev' := by
  induction events generalizing m with
  | nil =>
    refine iff_of_true assertionsHold_nil fun before ev rest he => ?_
    cases before <;> cases he
  | cons ev events ih =>
    obtain ⟨hfirst, hdies, hlives⟩ := synced_step h ev
    rw [assertionsHold_cons, forall_split_cons]
    by_cases hd : r.DiesBetween m ev
    · rw [behind_run (hdies hd)]
      constructor
      · rintro ⟨-, hrest⟩
        refine ⟨fun _ => hrest, fun before ev₁ rest he _ between ev₂ after he' => ?_⟩
        -- a later push of the tail, counted from its start
        have := hrest (before ++ ev₁ :: between) ev₂ after (by rw [he, he']; simp)
        exact this
      · rintro ⟨htail, -⟩
        exact ⟨hfirst, htail hd⟩
    · rw [ih (hlives hd)]
      constructor
      · rintro ⟨-, hrest⟩
        exact ⟨fun hd' => absurd hd' hd, hrest⟩
      · rintro ⟨-, hrest⟩
        exact ⟨hfirst, hrest⟩

/-- A death before the `head` store leaves the assertion true. -/
theorem assertions_hold_iff_cut :
    (⟨0, 2⟩ : SampleRing ℕ).AssertionsHold emptyArena cutHistory := by
  have hsync : (⟨0, 2⟩ : SampleRing ℕ).Synced emptyArena := rfl
  refine (assertions_hold_iff hsync cutHistory).mpr ?_
  unfold cutHistory
  rw [forall_split_cons]
  refine ⟨fun hd => absurd hd.2.2 (by decide), ?_⟩
  rw [forall_split_cons]
  refine ⟨fun hd => absurd hd.2.1 (by decide), fun before ev after he => ?_⟩
  cases before <;> cases he

end Debug

/-! ## A writer that dies between the two stores -/

/-- The first push dies after its `head` store, the second one is complete. -/
def staleHistory : List (PushEvent ℕ) :=
  [⟨10, ⟨⟨1, 0, 0, 0⟩, ⟨5, 0, 0⟩⟩, 13⟩, ⟨11, ⟨⟨1, 0, 0, 0⟩, ⟨6, 0, 0⟩⟩, 20⟩]

/-- The assertion fires in the second push. -/
theorem assertion_fires : ¬ (⟨0, 2⟩ : SampleRing ℕ).AssertionsHold emptyArena staleHistory := by
  intro h
  have hfalse := h [⟨10, ⟨⟨1, 0, 0, 0⟩, ⟨5, 0, 0⟩⟩, 13⟩] ⟨11, ⟨⟨1, 0, 0, 0⟩, ⟨6, 0, 0⟩⟩, 20⟩ [] rfl
  exact absurd hfalse (by decide)

end TfTree
