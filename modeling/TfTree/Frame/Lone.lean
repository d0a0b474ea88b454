import TfTree.Frame.Intern

/-!
# Interning in one thread

`ArenaView::intern` by the one thread of a process that nobody else has joined: every call
ends before the next one starts.

* `InternMem.Lone.run`: what a call leaves.
* `InternMem.Lone.run_again`: a name that has an id gets it again.
-/

namespace TfTree

open Conc

namespace InternMem

variable {T : InternTable} {m m' : InternMem} {t me fuel i id hash : ℕ} {name : List UInt8}

/-! ## The counter -/

/-- The counter is within the capacity. -/
structure Low (T : InternTable) (m : InternMem) : Prop where
  fits : Fits m
  count : m.frameCount ≤ T.capacity

/-- The access does not touch the counter. -/
def plain : InternOp → Bool
  | .addCount _ => false
  | .subCount _ => false
  | _ => true

/-- A program of accesses that do not touch the counter. -/
abbrev Plain {α : Type} (p : InternProg α) : Prop := p.Only fun o => plain o = true

/-- A program that keeps the counter within the capacity. -/
abbrev KeepsLow (T : InternTable) {α : Type} (p : InternProg α) (m : InternMem) : Prop :=
  p.wp (InternOp.exec T) Eq (fun _ _ => True) (fun _ => Low T) m

section Counter

variable {α β : Type} {p q : InternProg α}

theorem exec_plain {o : InternOp} (h : plain o = true) (hm : Low T m) : Low T (o.exec T m).2 := by
  cases o <;> first | exact ⟨hm.fits, hm.count⟩ | cases h

theorem low_plain (hp : Plain p) (hm : Low T m) : KeepsLow T p m := by
  refine Prog.wp_only (I := Low T) (fun o m ho hm => ?_) hp hm
  exact ⟨trivial, exec_plain ho hm⟩

theorem plain_op {o : InternOp} {f : o.Res → InternProg α} (h : plain o = true)
    (hf : ∀ r, Plain (f r)) : Plain (Prog.op o >>= f) :=
  (Prog.Only.op (S := fun o => plain o = true) h).bind hf

theorem plain_ite {c : Prop} [Decidable c] (hp : Plain p) (hq : Plain q) :
    Plain (if c then p else q) := by
  split_ifs
  · exact hp
  · exact hq

theorem low_op {o : InternOp} {f : o.Res → InternProg α}
    (h : KeepsLow T (f (o.exec T m).1) (o.exec T m).2) : KeepsLow T (Prog.op o >>= f) m :=
  Prog.wp_seq (Prog.wp_op_eq trivial h)

theorem low_ite {c : Prop} [Decidable c] (hp : c → KeepsLow T p m) (hq : ¬ c → KeepsLow T q m) :
    KeepsLow T (if c then p else q) m := by
  by_cases hc : c
  · rw [if_pos hc]
    exact hp hc
  · rw [if_neg hc]
    exact hq hc

theorem plain_resolve : Plain (T.resolve id hash name) := by
  refine plain_ite trivial (Prog.Only.bind (plain_ite trivial ?_) fun _ => trivial)
  exact plain_op rfl fun _ => plain_op rfl fun _ => trivial

theorem plain_writeRecord : Plain (T.writeRecord id hash name) :=
  plain_ite trivial (plain_op rfl fun _ => plain_op rfl fun _ => Prog.Only.op rfl)

theorem plain_publish {value : ℕ} : Plain (InternTable.publish i value) :=
  plain_op rfl fun _ => trivial

theorem plain_takeOver {recoverable : Bool} {owner : ℕ} {again : InternProg (Option Wait)}
    (h : Plain again) : Plain (if recoverable = true then do
      let won ← InternProg.casClaim i owner me
      if won then do
        let id ← InternProg.loadId i
        pure (some (if id ≠ idUnpublished then .published id else .takenOver))
      else again
    else again) :=
  plain_ite (plain_op rfl fun _ => plain_ite (plain_op rfl fun _ => trivial) h) h

theorem plain_wait {role : Role} {spins rounds : ℕ} :
    Plain (InternTable.waitForPublish i role fuel spins rounds) := by
  induction fuel generalizing spins rounds with
  | zero => trivial
  | succ fuel ih =>
    refine plain_op rfl fun id => plain_ite trivial (plain_ite ih (plain_op rfl fun owner => ?_))
    cases role with
    | reader =>
      refine plain_ite (plain_ite trivial ih) (plain_ite ?_ (plain_ite trivial ih))
      exact plain_op rfl fun alive => plain_ite ih trivial
    | interner me =>
      refine plain_ite (plain_ite trivial ih) (plain_ite ?_ (plain_op rfl fun alive => ?_))
      · exact plain_takeOver ih
      · exact plain_takeOver ih

/-- `finish` takes a number past the capacity back. -/
theorem low_finish (hm : Low T m) : KeepsLow T (T.finish t i hash name) m := by
  have hcap := T.capacity_lt
  unfold idFailed at hcap
  have hcount := hm.count
  refine low_op ?_
  have hfits : Fits (InternOp.exec T (.addCount t) m).2 := by
    show (m.wrapped || decide (m.frameCount + 1 = 2 ^ 32)) = false
    rw [show m.wrapped = false from hm.fits, decide_eq_false (by omega)]
    rfl
  have hnext : (InternOp.exec T (.addCount t) m).2.frameCount = m.frameCount + 1 :=
    Nat.mod_eq_of_lt (by omega)
  show KeepsLow T (if T.capacity ≤ m.frameCount then _ else _) _
  generalize (InternOp.exec T (.addCount t) m).2 = m₁ at hfits hnext ⊢
  refine low_ite (fun hfull => low_op ?_) fun hroom => ?_
  · refine low_plain (plain_publish.bind fun _ => ?_) ⟨hfits, ?_⟩
    · exact plain_ite trivial plain_resolve
    · show (if m₁.frameCount = 0 then 2 ^ 32 - 1 else m₁.frameCount - 1) ≤ T.capacity
      rw [if_neg (by omega)]
      omega
  · refine low_plain (plain_writeRecord.bind fun _ => plain_publish.bind fun _ => ?_)
      ⟨hfits, by omega⟩
    exact plain_ite trivial plain_resolve

theorem low_map {f : α → β} (h : KeepsLow T p m) : KeepsLow T (f <$> p) m := by
  rw [← bind_pure_comp]
  exact Prog.wp_seq h

/-- `intern_core` keeps the counter within the capacity. -/
theorem low_internLoop {n : ℕ} (hm : Low T m) :
    KeepsLow T (T.internLoop t me fuel hash name n i) m := by
  induction n generalizing m i with
  | zero => exact hm
  | succ n ih =>
    refine low_op (low_ite (fun _ => ?_) fun _ => low_ite (fun _ => low_op ?_) fun _ => ih hm)
    · refine Prog.wp_seq (Prog.wp_mono ?_ (low_plain plain_wait hm))
      intro w m' hm'
      cases w with
      | none => exact hm'
      | some w =>
        cases w with
        | published id => exact low_map (low_plain plain_resolve hm')
        | takenOver => exact low_map (low_finish hm')
        | abandoned => exact hm'
        | contended => exact hm'
    · refine low_ite (fun _ => hm) fun _ => low_op ?_
      have hm₁ : Low T (InternOp.exec T (.casHash i hash) m).2 := exec_plain rfl hm
      refine low_ite (fun _ => low_op ?_) fun _ => ih hm₁
      have hm₂ := exec_plain (o := .casClaim i claimUnrecorded
        (if me = claimUnrecorded then claimAnonymous else me)) rfl hm₁
      exact low_ite (fun _ => low_map (low_finish hm₂)) fun _ => ih hm₂

end Counter

/-! ## Calls one after the other -/

/-- The table between two calls. -/
structure Lone (T : InternTable) (m : InternMem) : Prop extends Low T m where
  inv : Inv T m

variable {r : Option (Except FrameError ℕ)}

/-- A call, run to its end: nothing published is taken back, and an id it returns is
    published for its name. -/
theorem Lone.run (h : Lone T m) (hh : ∀ name, T.hash name ≠ 0)
    (hr : (T.internCore t me fuel name).run (InternOp.exec T) m = some (r, m')) :
    Lone T m' ∧ Stays m m' ∧ ∀ id, r = some (.ok id) → Published T m' name id := by
  have hlow : Low T m' := Prog.wp_run (Q := fun _ => Low T) (low_internLoop h.toLow) hr
  have hwp : Sat T t (T.internCore t me fuel name)
      (fun r m => ∀ r', r = some r' → Good T name r' m) m := by
    rw [InternTable.internCore, T.pos_zero]
    exact sat_internLoop hh fun d' hd' => absurd hd' (by omega)
  obtain ⟨hJ, hS, hQ⟩ := InternPool.pact.run hwp h.inv hr hlow.fits
  exact ⟨⟨hlow, hJ⟩, (hS (t + 1) (by omega)).toStays, fun id hid => hQ _ hid hlow.fits id rfl⟩

/-- The probe of a name that has an id. -/
theorem Known.run_internLoop {e d : ℕ} (h : Known T m name id e) (h0 : id ≠ idUnpublished)
    (hid : m.ids (T.pos (T.hash name) e) = id) {n : ℕ} (hd : d ≤ e) (hn : e < d + n) :
    (T.internLoop t me fuel (T.hash name) name n (T.pos (T.hash name) d)).run
      (InternOp.exec T) m = some (some (.ok id), m) := by
  induction n generalizing d with
  | zero => omega
  | succ n ih =>
    show (if m.hashes (T.pos (T.hash name) d) = T.hash name then _
      else if m.hashes (T.pos (T.hash name) d) = 0 then _ else _ : InternProg _).run _ m = _
    rcases Nat.lt_or_eq_of_le hd with hlt | rfl
    · obtain ⟨hne0, hne⟩ := h.passed d hlt
      rw [if_neg hne, if_neg hne0, T.pos_succ]
      exact ih hlt (by omega)
    · rw [if_pos h.hashed, Prog.run_seq (InternTable.run_wait_published hid h0)]
      exact InternTable.run_map (InternTable.run_resolve h.shows.lt h.shows.ne_failed h.named)

/-- A name that has an id gets it again, and nothing changes. -/
theorem Lone.run_again (h : Lone T m) (hh : ∀ name, T.hash name ≠ 0)
    (hpub : Published T m name id) :
    (T.internCore t me fuel name).run (InternOp.exec T) m = some (some (.ok id), m) := by
  obtain ⟨e, he, hknown⟩ := hpub.known hh h.inv
  have h0 : id ≠ idUnpublished := by
    have hrange := hpub.range h.inv
    unfold idUnpublished
    omega
  have hturns : e < 0 + 2 * T.len := by omega
  rw [InternTable.internCore, T.pos_zero]
  exact hknown.run_internLoop h0 (h.inv.visible _ id hknown.shows.visible) (Nat.zero_le e) hturns

end InternMem

end TfTree
