import TfTree.Conc.Prog
import TfTree.Conc.System
import TfTree.Core.Error
import TfTree.Math.Iso3
import Mathlib.Data.Nat.Bitwise
import Mathlib.Data.List.FinRange

/-!
# The sample ring

`tf_tree_core/src/buffer.rs`: the shared words of a ring, the single atomic
accesses to them, and `SampleRing::push` and `SampleRing::read_slot` as programs
of such accesses. An arena is one ring memory for each edge.

`RingMem.published` is auxiliary: the list of the samples whose `head` store has
happened. No operation reads it.

* `Window`: the logical indices `retained` leaves to a reader.
* `SampleRing.slot_inj`: two indices less than a capacity apart are in different
  slots.
-/

namespace TfTree

open Conc

variable {F : Type}

/-! ## Shared words and atomic accesses -/

/-- The words of one ring: `head`, `heartbeat`, the stamps and the pose slots
    (`PoseSlot`: a sequence word and seven payload words). -/
structure RingMem (F : Type) where
  head : ℕ
  heartbeat : ℕ
  stamps : ℕ → ℤ
  seq : ℕ → BitVec 32
  data : ℕ → Fin 7 → F
  published : List (ℤ × Iso3 F)

/-- The rings of an arena, by edge. -/
abbrev RingArena (F : Type) := EdgeId → RingMem F

/-- The atomic accesses of `buffer.rs` and `sample.rs`. `storeHead` carries the
    sample it publishes for `RingMem.published`. -/
inductive RingOp (F : Type) where
  | loadHead (e : EdgeId)
  | loadStamp (e : EdgeId) (idx : ℕ)
  | loadSeq (e : EdgeId) (idx : ℕ)
  | loadData (e : EdgeId) (idx : ℕ) (i : Fin 7)
  | storeSeq (e : EdgeId) (idx : ℕ) (v : BitVec 32)
  | storeStamp (e : EdgeId) (idx : ℕ) (v : ℤ)
  | storeData (e : EdgeId) (idx : ℕ) (i : Fin 7) (w : F)
  | storeHead (e : EdgeId) (v : ℕ) (sample : ℤ × Iso3 F)
  | storeHeartbeat (e : EdgeId) (v : ℕ)

/-- The type of the value an access returns. -/
@[reducible] def RingOp.Res : RingOp F → Type
  | .loadHead _ => ℕ
  | .loadStamp _ _ => ℤ
  | .loadSeq _ _ => BitVec 32
  | .loadData _ _ _ => F
  | _ => Unit

/-- The meaning of one access. -/
def RingOp.exec : (o : RingOp F) → RingArena F → o.Res × RingArena F
  | .loadHead e, m => ((m e).head, m)
  | .loadStamp e idx, m => ((m e).stamps idx, m)
  | .loadSeq e idx, m => ((m e).seq idx, m)
  | .loadData e idx i, m => ((m e).data idx i, m)
  | .storeSeq e idx v, m => ((), upd m e { m e with seq := upd (m e).seq idx v })
  | .storeStamp e idx v, m => ((), upd m e { m e with stamps := upd (m e).stamps idx v })
  | .storeData e idx i w, m =>
    ((), upd m e { m e with data := upd (m e).data idx (upd ((m e).data idx) i w) })
  | .storeHead e v sample, m =>
    ((), upd m e { m e with head := v, published := (m e).published ++ [sample] })
  | .storeHeartbeat e v, m => ((), upd m e { m e with heartbeat := v })

/-- The access only reads. -/
def RingOp.IsLoad : RingOp F → Prop
  | .loadHead _ | .loadStamp _ _ | .loadSeq _ _ | .loadData _ _ _ => True
  | _ => False

theorem RingOp.exec_of_isLoad {o : RingOp F} (h : o.IsLoad) (m : RingArena F) :
    (o.exec m).2 = m := by
  cases o <;> first | rfl | cases h

/-- Programs over the ring accesses. -/
abbrev RingProg (F : Type) := Prog (RingOp F) RingOp.Res

/-- Programs over the ring accesses that may fail with a `LookupError`. -/
abbrev RingM (F : Type) := ExceptT LookupError (RingProg F)

/-! ## Ring handles -/

/-- `SampleRing`: the edge and the number of slots (`poses.len()`) of a ring of
    poses over `F`. -/
structure SampleRing (F : Type) where
  edge : EdgeId
  capacity : ℕ

namespace SampleRing

/-- `SampleRing::mask`. -/
def mask (r : SampleRing F) : ℕ := r.capacity - 1

/-- The physical index of a logical one: `logical & mask`. -/
def slot (r : SampleRing F) (logical : ℕ) : ℕ := logical &&& r.mask

/-- `SampleRing::retained`: `capacity - u64::from(capacity > 1)`. -/
def retained (r : SampleRing F) : ℕ := r.capacity - if r.capacity > 1 then 1 else 0

/-- The capacity is a power of two (`ArenaView::ring_bytes` yields no other ring). -/
def PowerOfTwo (r : SampleRing F) : Prop := ∃ k, r.capacity = 2 ^ k

theorem PowerOfTwo.pos {r : SampleRing F} (h : r.PowerOfTwo) : 0 < r.capacity := by
  obtain ⟨k, hk⟩ := h
  rw [hk]
  exact Nat.two_pow_pos k

theorem slot_eq_mod {r : SampleRing F} (h : r.PowerOfTwo) (i : ℕ) : r.slot i = i % r.capacity := by
  obtain ⟨k, hk⟩ := h
  unfold slot mask
  rw [hk, Nat.and_two_pow_sub_one_eq_mod]

theorem slot_lt {r : SampleRing F} (h : r.PowerOfTwo) (i : ℕ) : r.slot i < r.capacity := by
  rw [slot_eq_mod h]
  exact Nat.mod_lt _ h.pos

/-- Indices less than a capacity apart are in different slots. -/
theorem slot_inj {r : SampleRing F} (h : r.PowerOfTwo) {i j : ℕ} (hij : i < j)
    (hj : j < i + r.capacity) : r.slot i ≠ r.slot j := by
  rw [slot_eq_mod h, slot_eq_mod h]
  intro he
  have hm : (j - i) % r.capacity = 0 := Nat.sub_mod_eq_zero_of_mod_eq he.symm
  rw [Nat.mod_eq_of_lt (by omega)] at hm
  omega

theorem retained_pos {r : SampleRing F} (h : r.PowerOfTwo) : 0 < r.retained := by
  have := h.pos
  unfold retained
  split_ifs <;> omega

theorem retained_le {r : SampleRing F} : r.retained ≤ r.capacity := by
  unfold retained
  split_ifs <;> omega

theorem retained_of_two_le {r : SampleRing F} (h : 2 ≤ r.capacity) :
    r.retained = r.capacity - 1 := by
  unfold retained
  split_ifs <;> omega

end SampleRing

/-! ## The accesses as programs -/

namespace SampleRing

variable (r : SampleRing F)

/-- `self.head.load`. -/
def loadHead : RingProg F ℕ := Prog.op (RingOp.loadHead r.edge : RingOp F)

/-- `SampleRing::stamp_at`. -/
def stampAt (logical : ℕ) : RingProg F ℤ :=
  Prog.op (RingOp.loadStamp r.edge (r.slot logical) : RingOp F)

/-- `slot.seq.load`. -/
def loadSeq (idx : ℕ) : RingProg F (BitVec 32) := Prog.op (RingOp.loadSeq r.edge idx : RingOp F)

/-- `slot.data[i].load`. -/
def loadData (idx : ℕ) (i : Fin 7) : RingProg F F :=
  Prog.op (RingOp.loadData r.edge idx i : RingOp F)

/-- `slot.seq.store`. -/
def storeSeq (idx : ℕ) (v : BitVec 32) : RingProg F Unit :=
  Prog.op (RingOp.storeSeq r.edge idx v : RingOp F)

/-- `self.stamps[idx].store`. -/
def storeStamp (idx : ℕ) (v : ℤ) : RingProg F Unit :=
  Prog.op (RingOp.storeStamp r.edge idx v : RingOp F)

/-- `slot.data[i].store`. -/
def storeData (idx : ℕ) (i : Fin 7) (w : F) : RingProg F Unit :=
  Prog.op (RingOp.storeData r.edge idx i w : RingOp F)

/-- `self.head.store`. -/
def storeHead (v : ℕ) (sample : ℤ × Iso3 F) : RingProg F Unit :=
  Prog.op (RingOp.storeHead r.edge v sample : RingOp F)

/-- `self.heartbeat.store`. -/
def storeHeartbeat (v : ℕ) : RingProg F Unit :=
  Prog.op (RingOp.storeHeartbeat r.edge v : RingOp F)

/-! ## Checked `u64` arithmetic -/

/-- `a - b` in `u64`; the program stops on underflow. -/
def u64Sub (a b : ℕ) : RingProg F ℕ := if b ≤ a then pure (a - b) else .abort

/-! ## `push` -/

/-- `for (i, w) in bits.iter().enumerate() { slot.data[i].store(*w) }`, over the
    words in the list. -/
def storeWords (idx : ℕ) (bits : Fin 7 → F) : List (Fin 7) → RingProg F Unit
  | [] => pure ()
  | i :: is => do
    r.storeData idx i (bits i)
    storeWords idx bits is

/-- The stores of `SampleRing::push` for the sample of logical index `h`, after
    the stamp check. -/
def pushSlot (h : ℕ) (stamp : ℤ) (iso : Iso3 F) : RingProg F Unit := do
  let idx := r.slot h
  let seq ← r.loadSeq idx
  let odd := seq ||| 1#32
  r.storeSeq idx odd
  r.storeStamp idx stamp
  r.storeWords idx iso.toBits (List.finRange 7)
  r.storeSeq idx (odd + 1#32)
  r.storeHead (h + 1) (stamp, iso)
  r.storeHeartbeat (h + 1)

/-- `SampleRing::push` (`buffer.rs`, lines 191–244), as compiled without debug
    assertions. -/
def push (stamp : ℤ) (iso : Iso3 F) : RingProg F (Except PushError Unit) := do
  let h ← r.loadHead
  if h > 0 then
    let last ← r.stampAt (h - 1)
    if stamp < last then
      return .error (.nonMonotonicStamp r.edge last stamp)
    else
      r.pushSlot h stamp iso
      return .ok ()
  else
    r.pushSlot h stamp iso
    return .ok ()

/-! ## `read_slot` -/

/-- `SEQ_RETRY_LIMIT`. -/
def seqRetryLimit : ℕ := 64

/-- `for (i, b) in bits.iter_mut().enumerate() { *b = slot.data[i].load() }`. -/
def loadWords (idx : ℕ) : List (Fin 7) → (Fin 7 → F) → RingProg F (Fin 7 → F)
  | [], bits => pure bits
  | i :: is, bits => do
    let w ← r.loadData idx i
    loadWords idx is (upd bits i w)

/-- The retry loop of `SampleRing::read_slot`, with `n` attempts left. -/
def readSlotLoop [Zero F] (idx : ℕ) : ℕ → RingProg F (Except LookupError (Iso3 F))
  | 0 => pure (.error (.slotContended r.edge))
  | n + 1 => do
    let s1 ← r.loadSeq idx
    if s1 &&& 1#32 ≠ 0#32 then
      readSlotLoop idx n
    else
      let bits ← r.loadWords idx (List.finRange 7) fun _ => 0
      let s2 ← r.loadSeq idx
      if s2 = s1 then
        return .ok (Iso3.fromBits bits)
      else
        readSlotLoop idx n

/-- `SampleRing::read_slot` (`buffer.rs`, lines 254–273). -/
def readSlot [Zero F] (idx : ℕ) : RingM F (Iso3 F) :=
  ExceptT.mk (r.readSlotLoop idx seqRetryLimit)

end SampleRing

/-! ## The retained window -/

/-- The logical indices a reader that loaded `head` may touch: `[head - n, head - 1]`
    with `n = min(head, retained)`. -/
def SampleRing.Window (r : SampleRing F) (head i : ℕ) : Prop :=
  head - min head r.retained ≤ i ∧ i < head

theorem SampleRing.window_iff {r : SampleRing F} {head i : ℕ} :
    r.Window head i ↔ i < head ∧ head ≤ i + r.retained := by
  unfold Window
  omega

/-! ## Reading programs -/

/-- Precondition of a reading program: the environment moves by `R` before each
    load, the program itself changes nothing. -/
abbrev RingProg.wpRead {α : Type} (R : RingArena F → RingArena F → Prop) (p : RingProg F α)
    (Q : α → RingArena F → Prop) (m : RingArena F) : Prop := p.wp RingOp.exec R Eq Q m

theorem wpRead_op {R : RingArena F → RingArena F → Prop} {m : RingArena F} {o : RingOp F}
    (h : o.IsLoad) {Q : o.Res → RingArena F → Prop} :
    RingProg.wpRead R (Prog.op o) Q m ↔ ∀ m', R m m' → Q (o.exec m').1 m' := by
  rw [RingProg.wpRead, Prog.wp_op]
  refine forall_congr' fun m' => imp_congr_right fun _ => ?_
  rw [RingOp.exec_of_isLoad h]
  exact and_iff_right rfl

/-- A load of the writer. -/
theorem wp_load {G : RingArena F → RingArena F → Prop} {m : RingArena F} {o : RingOp F}
    (h : o.IsLoad) {Q : o.Res → RingArena F → Prop} (hG : G m m) (hQ : Q (o.exec m).1 m) :
    (Prog.op o).wp RingOp.exec Eq G Q m := by
  refine Prog.wp_op_eq ?_ ?_
  · rw [RingOp.exec_of_isLoad h]
    exact hG
  · rw [RingOp.exec_of_isLoad h]
    exact hQ

namespace SampleRing

variable (r : SampleRing F) {R : RingArena F → RingArena F → Prop} {m : RingArena F}

/-- The stamp word of a logical index. -/
def stampOf (m : RingArena F) (logical : ℕ) : ℤ := (m r.edge).stamps (r.slot logical)

@[simp] theorem run_loadHead : r.loadHead.run RingOp.exec m = some ((m r.edge).head, m) := rfl

@[simp] theorem run_stampAt (i : ℕ) :
    (r.stampAt i).run RingOp.exec m = some (r.stampOf m i, m) := rfl

@[simp] theorem run_loadSeq (idx : ℕ) :
    (r.loadSeq idx).run RingOp.exec m = some ((m r.edge).seq idx, m) := rfl

@[simp] theorem run_loadData (idx : ℕ) (i : Fin 7) :
    (r.loadData idx i).run RingOp.exec m = some ((m r.edge).data idx i, m) := rfl

theorem returns_loadHead : r.loadHead.Returns RingOp.exec m := ⟨_, r.run_loadHead⟩

theorem returns_stampAt (i : ℕ) : (r.stampAt i).Returns RingOp.exec m := ⟨_, r.run_stampAt i⟩

theorem run_u64Sub {a b : ℕ} (h : b ≤ a) :
    (u64Sub a b).run RingOp.exec m = some (a - b, m) := by
  rw [u64Sub, if_pos h]
  rfl

theorem returns_u64Sub {a b : ℕ} (h : b ≤ a) : (u64Sub a b).Returns RingOp.exec m :=
  ⟨_, run_u64Sub h⟩

theorem wpRead_loadHead {Q : ℕ → RingArena F → Prop} :
    RingProg.wpRead R r.loadHead Q m ↔ ∀ m', R m m' → Q (m' r.edge).head m' :=
  wpRead_op (o := .loadHead r.edge) trivial

theorem wpRead_stampAt {i : ℕ} {Q : ℤ → RingArena F → Prop} :
    RingProg.wpRead R (r.stampAt i) Q m ↔ ∀ m', R m m' → Q (r.stampOf m' i) m' :=
  wpRead_op (o := .loadStamp r.edge (r.slot i)) trivial

theorem wpRead_loadSeq {idx : ℕ} {Q : BitVec 32 → RingArena F → Prop} :
    RingProg.wpRead R (r.loadSeq idx) Q m ↔ ∀ m', R m m' → Q ((m' r.edge).seq idx) m' :=
  wpRead_op (o := .loadSeq r.edge idx) trivial

theorem wpRead_loadData {idx : ℕ} {i : Fin 7} {Q : F → RingArena F → Prop} :
    RingProg.wpRead R (r.loadData idx i) Q m ↔ ∀ m', R m m' → Q ((m' r.edge).data idx i) m' :=
  wpRead_op (o := .loadData r.edge idx i) trivial

theorem wpRead_u64Sub {a b : ℕ} {Q : ℕ → RingArena F → Prop} (h : b ≤ a → Q (a - b) m) :
    RingProg.wpRead R (u64Sub a b) Q m := by
  unfold u64Sub
  split_ifs with hb
  · exact h hb
  · trivial

end SampleRing

end TfTree
