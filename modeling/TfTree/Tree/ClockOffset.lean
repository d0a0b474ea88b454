import Mathlib
import TfTree.Tree.Writer

/-!
# The clock offset of a claim

What a writer records of its clock (`EdgeWriter::sample_clock_offset`, `tf_tree/src/tree.rs`) over
the pushes that it has taken, in any run of a process that is alone with its tree.

Results:
* `EdgeWriter.sampleAll_ne_zero`, `EdgeWriter.sampleAll_latest`: whether there is an offset, and
  of which push.
* `WriterSys.sampled_run`: both, in every run.
-/

namespace TfTree

open Conc

variable {F : Type}

/-! ## One writer -/

/-- A writer that records the offset of each push in turn: what the clock answers, and the
stamp. -/
def EdgeWriter.sampleAll (w : EdgeWriter F) (ps : List (Option ℤ × ℤ)) : EdgeWriter F × ℤ :=
  ps.foldl (fun st p =>
    ((st.1.sampleClockOffset p.1 p.2).1, ((st.1.sampleClockOffset p.1 p.2).2).getD st.2)) (w, 0)

section Offsets

variable {w : EdgeWriter F} {ps : List (Option ℤ × ℤ)} {now : Option ℤ} {stamp : ℤ}

theorem EdgeWriter.sampleAll_concat (w : EdgeWriter F) (ps : List (Option ℤ × ℤ))
    (now : Option ℤ) (stamp : ℤ) : w.sampleAll (ps ++ [(now, stamp)]) =
      (((w.sampleAll ps).1.sampleClockOffset now stamp).1,
        (((w.sampleAll ps).1.sampleClockOffset now stamp).2).getD (w.sampleAll ps).2) := by
  unfold EdgeWriter.sampleAll
  rw [List.foldl_append]
  rfl

theorem recordedOffset_ne_zero (now stamp : ℤ) : recordedOffset now stamp ≠ 0 := by
  unfold recordedOffset
  split_ifs with h
  · exact one_ne_zero
  · exact h

theorem EdgeWriter.sampleClockOffset_every (w : EdgeWriter F) (now : Option ℤ) (stamp : ℤ) :
    (w.sampleClockOffset now stamp).1.sampleEvery = w.sampleEvery := by
  unfold EdgeWriter.sampleClockOffset
  split_ifs
  · rfl
  · rfl
  · cases now with
    | none => rfl
    | some now => rfl

theorem EdgeWriter.sampleAll_every (w : EdgeWriter F) (ps : List (Option ℤ × ℤ)) :
    (w.sampleAll ps).1.sampleEvery = w.sampleEvery := by
  induction ps using List.reverseRecOn with
  | nil => rfl
  | append_singleton ps p ih =>
    rw [w.sampleAll_concat ps p.1 p.2, EdgeWriter.sampleClockOffset_every, ih]

/-- There is an offset exactly if the edge is on the wall clock and the clock was readable. -/
theorem EdgeWriter.sampleAll_ne_zero (hw : w.untilSample = 0) :
    (w.sampleAll ps).2 ≠ 0 ↔ w.sampleEvery ≠ 0 ∧ ∃ p ∈ ps, p.1.isSome = true := by
  have hall : ((w.sampleAll ps).2 ≠ 0 ↔ w.sampleEvery ≠ 0 ∧ ∃ p ∈ ps, p.1.isSome = true) ∧
      ((w.sampleAll ps).1.untilSample ≠ 0 → (w.sampleAll ps).2 ≠ 0) := by
    induction ps using List.reverseRecOn with
    | nil => exact ⟨by simp [EdgeWriter.sampleAll], fun h => absurd hw h⟩
    | append_singleton ps p ih =>
      obtain ⟨now, stamp⟩ := p
      obtain ⟨hiff, huntil⟩ := ih
      have hevery := w.sampleAll_every ps
      rw [w.sampleAll_concat]
      generalize w.sampleAll ps = st at hiff huntil hevery
      unfold EdgeWriter.sampleClockOffset
      by_cases h0 : st.1.untilSample ≠ 0
      · -- a push in between
        rw [if_pos h0]
        have hne := huntil h0
        obtain ⟨hn, p, hp, hsome⟩ := hiff.mp hne
        exact ⟨⟨fun _ => ⟨hn, p, List.mem_append_left _ hp, hsome⟩, fun _ => hne⟩, fun _ => hne⟩
      · rw [if_neg h0, hevery]
        by_cases hn : w.sampleEvery = 0
        · rw [if_pos hn]
          refine ⟨⟨fun h => absurd hn (hiff.mp h).1, fun h => absurd hn h.1⟩, fun h => absurd h h0⟩
        · rw [if_neg hn]
          cases now with
          | none =>
            refine ⟨hiff.trans ?_, fun h => absurd h h0⟩
            simp
          | some now =>
            have hne := recordedOffset_ne_zero now stamp
            refine ⟨⟨fun _ => ⟨hn, (some now, stamp), by simp, rfl⟩, fun _ => hne⟩, fun _ => hne⟩
  exact hall.1

/-- With a readable clock every `sampleEvery`-th push is recorded, the first one included. -/
theorem EdgeWriter.sampleAll_latest (hw : w.untilSample = 0) (hn : w.sampleEvery ≠ 0)
    (hps : ps ≠ []) (hclock : ∀ p ∈ ps, p.1.isSome = true) :
    ∃ now stamp, ps[(ps.length - 1) / w.sampleEvery * w.sampleEvery]? = some (some now, stamp) ∧
      (w.sampleAll ps).2 = recordedOffset now stamp := by
  have hall : (ps = [] ∧ (w.sampleAll ps).1.untilSample = 0) ∨
      ∃ q now stamp, ps.length + (w.sampleAll ps).1.untilSample = (q + 1) * w.sampleEvery ∧
        (w.sampleAll ps).1.untilSample < w.sampleEvery ∧
        ps[q * w.sampleEvery]? = some (some now, stamp) ∧
        (w.sampleAll ps).2 = recordedOffset now stamp := by
    clear hps
    induction ps using List.reverseRecOn with
    | nil => exact .inl ⟨rfl, hw⟩
    | append_singleton ps p ih =>
      obtain ⟨now, stamp⟩ := p
      have hprev := ih fun p hp => hclock p (List.mem_append_left _ hp)
      obtain ⟨now, rfl⟩ := Option.isSome_iff_exists.mp (hclock (now, stamp) (by simp))
      have hevery := w.sampleAll_every ps
      rw [w.sampleAll_concat, List.length_append, List.length_singleton]
      generalize w.sampleAll ps = st at hprev hevery
      unfold EdgeWriter.sampleClockOffset
      -- the push that is recorded next is the one at a multiple of the interval
      have hrecord : ∀ q, ps.length = q * w.sampleEvery → st.1.untilSample = 0 →
          ps.length + 1 + (w.sampleEvery - 1) = (q + 1) * w.sampleEvery ∧
            (ps ++ [(some now, stamp)])[q * w.sampleEvery]? = some (some now, stamp) := by
        intro q hq _
        constructor
        · rw [Nat.add_mul, Nat.one_mul, ← hq]
          omega
        · rw [← hq]
          exact List.getElem?_concat_length
      refine .inr ?_
      rcases hprev with ⟨rfl, h0⟩ | ⟨q, now', stamp', hlen, hlt, hget, hoff⟩
      · rw [if_neg (not_not_intro h0), hevery, if_neg hn]
        obtain ⟨hnext, hget⟩ := hrecord 0 (Nat.zero_mul _).symm h0
        exact ⟨0, now, stamp, hnext, by show w.sampleEvery - 1 < _; omega, hget, rfl⟩
      · by_cases h0 : st.1.untilSample ≠ 0
        · rw [if_pos h0]
          refine ⟨q, now', stamp', ?_, ?_, ?_, hoff⟩
          · show ps.length + 1 + (st.1.untilSample - 1) = _
            omega
          · show st.1.untilSample - 1 < _
            omega
          · rw [List.getElem?_append_left (List.getElem?_eq_some_iff.mp hget).1]
            exact hget
        · rw [if_neg h0, hevery, if_neg hn]
          obtain ⟨hnext, hget⟩ := hrecord (q + 1) (by omega) (not_not.mp h0)
          exact ⟨q + 1, now, stamp, hnext, by show w.sampleEvery - 1 < _; omega, hget, rfl⟩
  rcases hall with ⟨hnil, -⟩ | ⟨q, now, stamp, hlen, hlt, hget, hoff⟩
  · exact absurd hnil hps
  · refine ⟨now, stamp, ?_, hoff⟩
    have hq : (ps.length - 1) / w.sampleEvery = q := by
      refine Nat.div_eq_of_lt_le ?_ ?_
      · rw [Nat.add_mul, Nat.one_mul] at hlen
        omega
      · have hpos := List.length_pos_iff.mpr hps
        omega
    rw [hq]
    exact hget

end Offsets

/-- The writer, and the offset of its claim, are what a claim and these pushes leave. -/
def HeapTree.SampledBy (t : HeapTree F) (w : EdgeWriter F) (ps : List (Option ℤ × ℤ)) : Prop :=
  ∃ (w₀ : EdgeWriter F) (slot : EdgeSlot F), w₀.untilSample = 0 ∧
    t.arena.edge w.ring.edge = some slot ∧
    w₀.sampleEvery = sampleInterval slot.domain slot.nominalRateMhz ∧
    w₀.sampleAll ps = (w, (t.claims w.ring.edge).clockOffsetNanos)

/-! ## Runs with a log -/

namespace WriterSys

/-- The pushes that each writer has taken: what the clock answered, and the stamps. -/
abbrev Log := ℕ → List (Option ℤ × ℤ)

/-- The push that a call takes: the writer, what the clock answers, and the stamp. -/
def taken (s : WriterSys F) : WriterEvent F → Option (ℕ × Option ℤ × ℤ)
  | .push i now stamp iso => do
    let w ← s.writers[i]?.join
    match s.tree.push w now stamp iso with
    | some (.ok _, _) => some (i, now, stamp)
    | _ => none
  | _ => none

/-- One call, with the log. -/
def stepLogged (s : WriterSys F × Log) (e : WriterEvent F) : Option (WriterSys F × Log) :=
  (s.1.step e).map fun s' => (s', match s.1.taken e with
    | some (i, p) => upd s.2 i (s.2 i ++ [p])
    | none => s.2)

/-- Each writer has sampled the pushes of its log. -/
structure Sampled (s : WriterSys F × Log) : Prop where
  owned : s.1.Owned
  unused : ∀ i, s.1.writers.length ≤ i → s.2 i = []
  offset : ∀ i w, s.1.Live i w → s.1.tree.SampledBy w (s.2 i)

section Logged

variable {s : WriterSys F × Log} {s' : WriterSys F} {i : ℕ} {w : EdgeWriter F}

/-- A writer keeps its offset while its claim record and its log stay. -/
theorem Sampled.keep (h : Sampled s) (howned : s'.Owned) {log : Log}
    (hlen : s.1.writers.length ≤ s'.writers.length)
    (hlog : ∀ i, s'.writers.length ≤ i → log i = s.2 i)
    (hlive : ∀ i w, s'.Live i w → s.1.Live i w ∧ log i = s.2 i ∧
        s'.tree.arena.edge w.ring.edge = s.1.tree.arena.edge w.ring.edge ∧
        (s'.tree.claims w.ring.edge).clockOffsetNanos =
          (s.1.tree.claims w.ring.edge).clockOffsetNanos ∨
      s'.tree.SampledBy w (log i)) :
    Sampled (s', log) where
  owned := howned
  unused := by
    intro i hi
    exact (hlog i hi).trans (h.unused i (hlen.trans hi))
  offset := by
    intro i w hw
    rcases hlive i w hw with ⟨hold, hlog', hedge, hclaim⟩ | hnew
    · show s'.tree.SampledBy w (log i)
      unfold HeapTree.SampledBy
      rw [hlog', hedge, hclaim]
      exact h.offset i w hold
    · exact hnew

/-- **Step lemma.** -/
theorem Sampled.step {s' : WriterSys F × Log} {e : WriterEvent F} (h : Sampled s)
    (hs : stepLogged s e = some s') : Sampled s' := by
  obtain ⟨s₁, hstep, rfl⟩ := Option.map_eq_some_iff.mp hs
  have howned := h.owned.step hstep
  cases e with
  | claim child parent =>
    obtain ⟨⟨res, t⟩, hclaim, rfl⟩ := Option.map_eq_some_iff.mp hstep
    cases res with
    | error err =>
      have ht : t = s.1.tree := by
        by_cases hr : ∃ r, s.1.tree.Attaches child parent r
        · obtain ⟨r, hr⟩ := hr
          rcases h.owned.claim_cases hr with ⟨-, w, t', hok, -⟩ | ⟨-, herr⟩
          · cases hok.symm.trans hclaim
          · cases herr.symm.trans hclaim
            rfl
        · obtain ⟨err', herr, -⟩ := HeapTree.claim_refused fun r hr' => hr ⟨r, hr'⟩
          cases herr.symm.trans hclaim
          rfl
      subst ht
      exact h
    | ok w =>
      obtain ⟨huntil, harena, hslot, hzero, hother⟩ := HeapTree.claim_starts hclaim
      refine h.keep howned (by simp) (fun _ _ => rfl) fun j w' hj => ?_
      have hnew : (⟨t, s.1.writers ++ [some w]⟩ : WriterSys F).Live s.1.writers.length w :=
        live_append.mpr (.inr ⟨rfl, rfl⟩)
      rcases live_append.mp hj with hold | ⟨rfl, rfl⟩
      · -- another edge
        have hne : w'.ring.edge ≠ w.ring.edge := by
          intro hedge
          have heq := howned.apart j _ w' w hj hnew hedge
          have hlt := (List.getElem?_eq_some_iff.mp hold).1
          omega
        refine .inl ⟨hold, rfl, ?_, ?_⟩
        · show t.arena.edge _ = _
          rw [harena]
        · show (t.claims _).clockOffsetNanos = _
          rw [hother _ hne]
      · obtain ⟨slot, hslot, hevery⟩ := hslot
        refine .inr ⟨w', slot, huntil, ?_, hevery, ?_⟩
        · show t.arena.edge _ = _
          rw [harena, hslot]
        · show w'.sampleAll (s.2 s.1.writers.length) = (w', (t.claims _).clockOffsetNanos)
          rw [h.unused _ le_rfl, hzero]
          rfl
  | push i now stamp iso =>
    obtain ⟨w, hw, hstep⟩ := Option.bind_eq_some_iff.mp hstep
    have hlive : s.1.Live i w := Option.join_eq_some_iff.mp hw
    have hlt : i < s.1.writers.length := (List.getElem?_eq_some_iff.mp hlive).1
    have htaken : s.1.taken (.push i now stamp iso) =
        match s.1.tree.push w now stamp iso with
        | some (.ok _, _) => some (i, now, stamp)
        | _ => none := by
      rw [taken, hw]
      rfl
    have hhandle := h.owned.handle i w hlive
    obtain ⟨zs, hnew⟩ := h.owned.rings _ _ hhandle
    rcases HeapTree.push_spec (h.owned.epoch i w hlive) (Arena.handle_powerOfTwo hhandle) hnew now
      stamp iso with ⟨-, rings, -, hpush, -, -⟩ | ⟨last, -, -, hpush⟩
    · rw [htaken, hpush]
      rw [hpush] at hstep
      cases hstep
      refine h.keep howned (by simp) ?_ fun j w' hj => ?_
      · intro j hj
        rw [List.length_set] at hj
        exact upd_of_ne _ _ (by omega)
      · obtain ⟨w₀, slot, huntil, hslot, hevery, hall⟩ := h.offset i w hlive
        obtain ⟨hring, -, -⟩ := sampleClockOffset_writer w now stamp
        have hset := (live_set hlive).mp hj
        split_ifs at hset with hji
        · -- the writer of the push
          subst hji
          obtain rfl := Option.some_inj.mp hset
          refine .inr ⟨w₀, slot, huntil, ?_, hevery, ?_⟩
          · show ({ s.1.tree with arena.rings := rings }.record _ _).arena.edge _ = _
            rw [HeapTree.record_arena, hring]
            exact hslot
          · show w₀.sampleAll (upd s.2 j (s.2 j ++ [(now, stamp)]) j) = _
            rw [upd_self, w₀.sampleAll_concat, hall, hring]
            dsimp only
            congr 1
            cases (w.sampleClockOffset now stamp).2 with
            | none => rfl
            | some offset =>
              show offset = (upd s.1.tree.claims w.ring.edge _ w.ring.edge).clockOffsetNanos
              rw [upd_self]
        · have hne : w'.ring.edge ≠ w.ring.edge :=
            fun hedge => hji (h.owned.apart j i w' w hset hlive hedge)
          refine .inl ⟨hset, upd_of_ne _ _ hji, ?_, ?_⟩
          · show ({ s.1.tree with arena.rings := rings }.record _ _).arena.edge _ = _
            rw [HeapTree.record_arena]
            rfl
          · show (({ s.1.tree with arena.rings := rings }.record _ _).claims _).clockOffsetNanos = _
            cases (w.sampleClockOffset now stamp).2 with
            | none => rfl
            | some offset =>
              show (upd s.1.tree.claims w.ring.edge _ w'.ring.edge).clockOffsetNanos = _
              rw [upd_of_ne _ _ hne]
    · rw [htaken, hpush]
      rw [hpush] at hstep
      cases hstep
      exact h
  | drop i =>
    obtain ⟨w, hw, hstep⟩ := Option.bind_eq_some_iff.mp hstep
    have hlive : s.1.Live i w := Option.join_eq_some_iff.mp hw
    cases hstep
    refine h.keep howned (by simp) (fun _ _ => rfl) fun j w' hj => ?_
    have hset := (live_set hlive).mp hj
    split_ifs at hset with hji
    have hne : w'.ring.edge ≠ w.ring.edge :=
      fun hedge => hji (h.owned.apart j i w' w hset hlive hedge)
    refine .inl ⟨hset, rfl, rfl, ?_⟩
    show (upd s.1.tree.claims w.ring.edge _ w'.ring.edge).clockOffsetNanos = _
    rw [upd_of_ne _ _ hne]
  | reparent child newParent =>
    obtain ⟨⟨res, t⟩, hreparent, rfl⟩ := Option.map_eq_some_iff.mp hstep
    obtain ⟨res', topology, hreturns⟩ := reparent_returns s.1.tree child newParent
    cases hreturns.symm.trans hreparent
    exact ⟨howned, h.unused, h.offset⟩

end Logged

/-- **Main theorem.** In every run, the claim of a writer has an offset exactly if its edge is on
the wall clock and the clock was readable at one of the pushes it has taken. While the clock is
readable, the offset is that of the latest push at a multiple of the sample interval. -/
theorem sampled_run [Scalar F] {b : TreeBuilder F} {hash : List UInt8 → ℕ}
    {uuid : Vector UInt8 16} {fuel : ℕ} {a : Arena F} {participant : Slot}
    {s : WriterSys F × Log} (hbuild : b.buildWith hash uuid fuel = some (.ok a))
    (hrun : Reachable stepLogged (ofArena a participant, fun _ => []) s) {i : ℕ}
    {w : EdgeWriter F} (hlive : s.1.Live i w) :
    ∃ slot n, s.1.tree.arena.edge w.ring.edge = some slot ∧
      n = sampleInterval slot.domain slot.nominalRateMhz ∧
      ((s.1.tree.claims w.ring.edge).clockOffsetNanos ≠ 0 ↔
        n ≠ 0 ∧ ∃ p ∈ s.2 i, p.1.isSome = true) ∧
      (n ≠ 0 → s.2 i ≠ [] → (∀ p ∈ s.2 i, p.1.isSome = true) → ∃ now stamp,
        (s.2 i)[((s.2 i).length - 1) / n * n]? = some (some now, stamp) ∧
        (s.1.tree.claims w.ring.edge).clockOffsetNanos = recordedOffset now stamp) := by
  have hrings := TreeBuilder.rings_of_build hbuild
  have hpreserved : Preserved stepLogged anyStep (Sampled (F := F)) :=
    fun s e s' h _ hstep => h.step hstep
  have hinit : Sampled (ofArena a participant, fun _ => []) :=
    ⟨owned_ofArena participant hrings, fun _ _ => rfl, fun _ _ h => by cases h⟩
  obtain ⟨w₀, slot, huntil, hslot, hevery, hall⟩ :=
    (hrun.invariant hpreserved hinit).offset i w hlive
  have hoff : (s.1.tree.claims w.ring.edge).clockOffsetNanos = (w₀.sampleAll (s.2 i)).2 := by
    rw [hall]
  refine ⟨slot, _, hslot, rfl, ?_, fun hn hps hclock => ?_⟩
  · rw [hoff, ← hevery]
    exact EdgeWriter.sampleAll_ne_zero huntil
  · rw [hoff, ← hevery]
    exact EdgeWriter.sampleAll_latest huntil (by rwa [hevery]) hps hclock

/-- The chain, with a sample for its middle frame. -/
theorem sampled_run_chain : ∃ a s w,
    chainBuilder.buildWith chainHash (Vector.replicate 16 0) 0 = some (.ok a) ∧
      execAll stepLogged (ofArena a 0, fun _ => [])
        [.claim (chainBuilder.idOf "base") (chainBuilder.idOf "odom"),
          .push 0 (some 5) 3 (Iso3.fromBits fun _ => 0)] = some s ∧
      s.1.Live 0 w ∧ (s.1.tree.claims w.ring.edge).clockOffsetNanos = 2 := by
  obtain ⟨a, hbuild, hbuilt⟩ := built_chain
  obtain ⟨w, t, hclaim, hring, harena, -, howned, hnew⟩ := claim_chain hbuild
  have hhandle := howned.handle 0 w rfl
  rcases HeapTree.push_spec (howned.epoch 0 w rfl) (Arena.handle_powerOfTwo hhandle) hnew (some 5)
    3 (Iso3.fromBits fun _ => 0) with ⟨-, rings, -, hpush, -, -⟩ | ⟨last, hlast, -, -⟩
  · have hclaimed : stepLogged (ofArena a 0, fun _ => [])
        (.claim (chainBuilder.idOf "base") (chainBuilder.idOf "odom")) =
          some (⟨t, [some w]⟩, fun _ => []) := by
      rw [stepLogged, WriterSys.step, hclaim]
      rfl
    obtain ⟨s, hpushed, hlog, hedges, hlive⟩ : ∃ s, stepLogged (⟨t, [some w]⟩, fun _ => [])
        (.push 0 (some 5) 3 (Iso3.fromBits fun _ => 0)) = some s ∧ s.2 0 = [(some 5, 3)] ∧
          s.1.tree.arena.edge = t.arena.edge ∧
          s.1.Live 0 (w.sampleClockOffset (some 5) 3).1 := by
      rw [stepLogged]
      simp only [WriterSys.step, taken, hpush, Live, List.getElem?_cons_zero, Option.join_some,
        Option.bind_eq_bind, Option.bind_some, Option.map_some, List.set_cons_zero]
      refine ⟨_, rfl, ?_, ?_, rfl⟩
      · dsimp only
        rw [upd_self, List.nil_append]
      · rw [HeapTree.record_arena]
        rfl
    have hrun : execAll stepLogged (ofArena a 0, fun _ => [])
        [.claim (chainBuilder.idOf "base") (chainBuilder.idOf "odom"),
          .push 0 (some 5) 3 (Iso3.fromBits fun _ => 0)] = some s := by
      rw [execAll, exec, if_pos rfl, hclaimed]
      show exec _ _ _ _ = _
      rw [exec, if_pos rfl, hpushed]
      rfl
    refine ⟨a, s, _, hbuild, hrun, hlive, ?_⟩
    obtain ⟨slot, n, hslot, rfl, -, hlatest⟩ := sampled_run hbuild (reachable_of_execAll hrun) hlive
    -- the first push of an edge on the wall clock
    rw [(sampleClockOffset_writer w (some 5) 3).1, hedges, harena, hring] at hslot
    obtain ⟨-, -, off, hrecord⟩ := hbuilt.link 0 _ List.getElem?_cons_zero
    obtain rfl := Option.some_inj.mp (hrecord.symm.trans hslot)
    have hinterval : sampleInterval Bridge.systemTag 0 ≠ 0 := by decide
    obtain ⟨now, stamp, hget, hoff⟩ := hlatest hinterval (by simp [hlog]) (by simp [hlog])
    rw [hlog] at hget
    obtain ⟨rfl, rfl⟩ : now = 5 ∧ stamp = 3 := by simpa [eq_comm] using hget
    rw [hoff]
    decide
  · cases hlast

end WriterSys

end TfTree
