import TfTree.Ring.Sample

/-!
# The accesses of a reader

What the readers of `tf_tree_core/src/sample.rs` may do and return whatever their loads
return: they only load, and they return no error about the query.

Results:
* `held_through`, `readBracket_through`: the errors of the readers of slots.
-/

namespace TfTree

open Conc

variable {F : Type}

/-- An error that says nothing about `t`: the ring is empty, or the reader lost a race. -/
def SampleRing.Retries (r : SampleRing F) (e : LookupError) : Prop :=
  e = .noData r.edge ∨ e = .slotContended r.edge ∨ e = .slotRecycled r.edge

section Through

variable {r : SampleRing F} {B : Type} {exact' : Iso3 F → B} {between : Iso3 F → Iso3 F → F → B}

theorem loadWords_through (idx : ℕ) (is : List (Fin 7)) (bits : Fin 7 → F) :
    (r.loadWords idx is bits).Through RingOp.IsLoad fun _ => True := by
  induction is generalizing bits with
  | nil => trivial
  | cons i is ih => exact (Prog.Through.op trivial).bind fun w _ => ih _

theorem readSlot_through [Zero F] (idx : ℕ) :
    (r.readSlot idx).run.Through RingOp.IsLoad (Prog.onError r.Retries) := by
  show (r.readSlotLoop idx SampleRing.seqRetryLimit).Through RingOp.IsLoad _
  generalize SampleRing.seqRetryLimit = n
  induction n with
  | zero => exact .inr (.inl rfl)
  | succ n ih =>
    rw [SampleRing.readSlotLoop]
    refine (Prog.Through.op trivial).bind fun s1 _ => ?_
    split_ifs
    · exact ih
    · refine (loadWords_through idx _ _).bind fun bits _ => ?_
      refine (Prog.Through.op trivial).bind fun s2 _ => ?_
      split_ifs
      · trivial
      · exact ih

theorem revalidated_through {β : Type} [Kernels F] (i : ℕ) (v : β) :
    (r.revalidated i v).run.Through RingOp.IsLoad (Prog.onError r.Retries) := by
  refine Prog.Through.bindE (Prog.Through.liftE (Prog.Through.op trivial)) fun head => ?_
  refine Prog.Through.bindE (Prog.Through.liftE (u64Sub_through _ _)) fun d => ?_
  split_ifs
  · exact .inr (.inr rfl)
  · trivial

theorem held_through [Kernels F] (i : ℕ) :
    (r.held i).run.Through RingOp.IsLoad (Prog.onError r.Retries) :=
  Prog.Through.bindE (readSlot_through _) fun p => revalidated_through i p

theorem readBracket_through [Kernels F] (i : ℕ) (t : ℤ) :
    (r.readBracket exact' between i t).run.Through RingOp.IsLoad (Prog.onError r.Retries) := by
  unfold SampleRing.readBracket
  refine Prog.Through.bindE (Prog.Through.liftE (Prog.Through.op trivial)) fun ti => ?_
  split_ifs
  · exact Prog.Through.bindE (readSlot_through _) fun p => revalidated_through i _
  · refine Prog.Through.bindE (Prog.Through.liftE (Prog.Through.op trivial)) fun tj => ?_
    refine Prog.Through.bindE (readSlot_through _) fun a => ?_
    exact Prog.Through.bindE (readSlot_through _) fun b => revalidated_through i _

end Through

end TfTree
